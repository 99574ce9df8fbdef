import Hibari.PreviewRuns

/-!
# What steps do to previews

Each action is a message that is sent, edited or deleted, or rewrites rows (`effect_of_act`). Most of
what rewrites writes no row at all; claiming a row, completing it and removing it write one.
-/

namespace Hibari

open List Option Function PreviewTables

namespace RoomRecord

variable {r numbers : RoomRecord}

theorem lastChangeSeq_of_allocateMessageSeq (h : r.allocateMessageSeq = some numbers) :
    numbers.lastChangeSeq = r.lastChangeSeq + 1 := by
  rw [allocateMessageSeq] at h
  split at h
  · cases h
  · rw [← some.inj h]

theorem lastChangeSeq_of_allocateThreadReplySeq {inChannel : Bool}
    (h : r.allocateThreadReplySeq inChannel = some numbers) :
    numbers.lastChangeSeq = r.lastChangeSeq + 2 := by
  rw [allocateThreadReplySeq] at h
  split at h
  · cases h
  · rw [← some.inj h]

end RoomRecord

namespace PreviewService

variable {c : Unfolding} {s s' : PreviewService} {a : PreviewAction} {m : ChatMessage}
  {f : ChatMessage → ChatMessage} {g : ChatMessage → ChatMessage} {room message : Ulid}
  {r numbers : RoomRecord}

/-! ## Messages that are written -/

/-- One message is written. -/
def onMessage (id : Ulid) (f : ChatMessage → ChatMessage) (x : ChatMessage) : ChatMessage :=
  if x.id = id then f x else x

/-- The root of a reply is written. -/
def onRoot (root : Option Ulid) (f : ChatMessage → ChatMessage) : ChatMessage → ChatMessage :=
  root.elim id fun root => onMessage root f

/-- What no call writes of a message. -/
def SameMessage (x y : ChatMessage) : Prop :=
  x.id = y.id ∧ x.roomId = y.roomId ∧ x.kind = y.kind ∧ x.threadRootId = y.threadRootId

theorem sameMessage_onMessage {id : Ulid} (hf : ∀ x, SameMessage (f x) x) (x : ChatMessage) :
    SameMessage (onMessage id f x) x := by
  rw [onMessage]
  split
  · exact hf x
  · exact ⟨rfl, rfl, rfl, rfl⟩

theorem sameMessage_onRoot {root : Option Ulid} (hf : ∀ x, SameMessage (f x) x) (x : ChatMessage) :
    SameMessage (onRoot root f x) x := by
  cases root with
  | none => exact ⟨rfl, rfl, rfl, rfl⟩
  | some => exact sameMessage_onMessage hf x

theorem messages_updateRoot (d : PreviewTables) (root : Option Ulid)
    (f : ChatMessage → ChatMessage) :
    (d.updateRoot root f).messages = d.messages.map (onRoot root f) ∧
    (d.updateRoot root f).rooms = d.rooms ∧ (d.updateRoot root f).previews = d.previews ∧
    (d.updateRoot root f).links = d.links := by
  cases root with
  | none => exact ⟨(List.map_id _).symm, rfl, rfl, rfl⟩
  | some => exact ⟨rfl, rfl, rfl, rfl⟩

/-- The number of a message that is written is a new one. -/
theorem changeSeq_onMessage {id : Ulid} {k : ℕ} (hs : s.MessagesSound) (hm : m ∈ s.tables.messages)
    (hid : m.id = id) (hf : ∀ x, (f x).changeSeq = k) {x y : ChatMessage}
    (hx : x ∈ s.tables.messages) (hy : y.id = x.id) :
    (onMessage id f y).changeSeq = y.changeSeq ∨
      x.roomId = m.roomId ∧ (onMessage id f y).changeSeq = k := by
  rw [onMessage]
  split
  · next heq =>
    obtain rfl := hs.message_eq hx hm (hy.symm.trans (heq.trans hid.symm))
    exact .inr ⟨rfl, hf y⟩
  · exact .inl rfl

/-- Numbers of a room are given to messages of it. -/
theorem turns_of_numbers {sent : Option ChatMessage} (hr : s.tables.rooms room = some r)
    (hle : r.lastChangeSeq ≤ numbers.lastChangeSeq)
    (hrooms : s'.tables.rooms = update s.tables.rooms room (some numbers))
    (hmessages : s'.tables.messages = s.tables.messages.map g ++ sent.toList)
    (hsame : ∀ x, SameMessage (g x) x) (hids : s.ids ≤ s'.ids)
    (hnumber : ∀ x ∈ s.tables.messages, (g x).changeSeq = x.changeSeq ∨ x.roomId = room ∧
      r.lastChangeSeq < (g x).changeSeq ∧ (g x).changeSeq ≤ numbers.lastChangeSeq)
    (hsent : ∀ m ∈ sent, m.id = s.ids ∧ s.ids < s'.ids ∧ m.roomId = room ∧
      m.changeSeq ≤ numbers.lastChangeSeq ∧
      ∀ root ∈ m.threadRootId, ∃ x ∈ s.tables.messages, x.id = root ∧ x.roomId = m.roomId) :
    Turns s s' g sent where
  messages := hmessages
  message := hsame
  ids := hids
  rooms id x hx := by
    rw [hrooms]
    by_cases heq : id = room
    · subst heq
      obtain rfl := some.inj (hr.symm.trans hx)
      exact ⟨numbers, update_self .., hle⟩
    · exact ⟨x, (update_of_ne heq ..).trans hx, le_rfl⟩
  number x hx := by
    refine (hnumber x hx).imp_right fun ⟨hroom, hlt, hle⟩ => ⟨r, numbers, ?_, ?_, hlt, hle⟩
    · rw [hroom, hr]
    · rw [hroom, hrooms, update_self]
  sent m hm := by
    obtain ⟨hid, hlt, hroom, hle, hroot⟩ := hsent m hm
    exact ⟨hid, hlt, ⟨numbers, by rw [hroom, hrooms, update_self], hle⟩, hroot⟩

/-- Messages stay. -/
theorem turns_same (hmessages : s'.tables.messages = s.tables.messages) (hids : s.ids ≤ s'.ids)
    (hrooms : ∀ id x, s.tables.rooms id = some x →
      ∃ x', s'.tables.rooms id = some x' ∧ x.lastChangeSeq ≤ x'.lastChangeSeq) :
    Turns s s' id none where
  messages := by
    rw [hmessages]
    simp
  message _ := ⟨rfl, rfl, rfl, rfl⟩
  ids := hids
  rooms := hrooms
  number _ _ := .inl rfl
  sent m hm := nomatch hm

/-- A message gets the next number of its room. -/
theorem turns_touch (hs : s.MessagesSound) (hm : s.tables.getMessage room message = some m)
    (hnumbers : s.tables.allocateChangeSeq room 1 = some numbers)
    (hrooms : s'.tables.rooms = update s.tables.rooms room (some numbers))
    (hf : ∀ x, SameMessage (f x) x ∧ (f x).changeSeq = numbers.lastChangeSeq)
    (hmessages : s'.tables.messages = s.tables.messages.map (onMessage message f))
    (hids : s.ids ≤ s'.ids) : Turns s s' (onMessage message f) none ∧
      (onMessage message f m).changeSeq ≠ m.changeSeq := by
  obtain ⟨hmem, hroom, hid⟩ := mem_of_getMessage hm
  obtain ⟨r, hr, hlast⟩ := allocateChangeSeq_eq_some hnumbers
  have hturns : Turns s s' (onMessage message f) none := by
    refine turns_of_numbers hr (by rw [hlast]; exact Nat.le_succ _) hrooms
      (hmessages.trans (append_nil _).symm) (sameMessage_onMessage fun x => (hf x).1) hids
      (fun x hx => ?_) nofun
    refine (changeSeq_onMessage hs hmem hid (fun x => (hf x).2) hx rfl).imp_right fun ⟨heq, hk⟩ => ?_
    rw [hk, hlast]
    exact ⟨heq.trans hroom, Nat.lt_succ_self _, le_rfl⟩
  refine ⟨hturns, fun heq => ?_⟩
  obtain ⟨x, hx, hle⟩ := hs.numbered m hmem
  obtain rfl := some.inj (hr.symm.trans (hroom ▸ hx))
  rw [onMessage, if_pos hid, (hf m).2, hlast] at heq
  exact absurd hle (by rw [← heq]; exact Nat.not_succ_le_self _)

/-! ## Rows that are written -/

/-- No row is written. -/
theorem rewrites_of_turns (h : Turns s s' g none)
    (hsame : ∀ m, (g m).body = m.body ∧ (g m).deleted = m.deleted)
    (hpreviews : s'.tables.previews = s.tables.previews) (hhidden : s'.hidden = s.hidden)
    (hlinks : ∀ l ∈ s.tables.links, l ∈ s'.tables.links ∨
      ∀ r ∈ s.tables.previews, r.linkPreviewId ≠ some l.id) : Rewrites s s' id g where
  toTurns := h
  same := hsame
  previews := hpreviews.trans (List.map_id _).symm
  row _ := ⟨rfl, rfl, rfl, rfl, rfl⟩
  linked hd r hr hok := by
    rw [hpreviews] at hr
    obtain ⟨l, hl, heq⟩ := hd r hr hok
    exact ⟨l, (hlinks l hl).resolve_right fun hnone => hnone r hr heq, heq⟩
  hidden := ⟨[], hhidden.trans (append_nil _).symm, fun h hh => absurd hh not_mem_nil,
    fun r _ => (or_iff_left not_mem_nil).symm⟩
  settled _ _ _ := ⟨rfl, rfl⟩
  shown m _ := fun ⟨_, _, hne, _⟩ => absurd rfl hne

/-- Nothing of the tables is written but what was fetched. -/
theorem rewrites_same (hmessages : s'.tables.messages = s.tables.messages) (hids : s.ids ≤ s'.ids)
    (hrooms : s'.tables.rooms = s.tables.rooms)
    (hpreviews : s'.tables.previews = s.tables.previews) (hhidden : s'.hidden = s.hidden)
    (hlinks : ∀ l ∈ s.tables.links, l ∈ s'.tables.links ∨
      ∀ r ∈ s.tables.previews, r.linkPreviewId ≠ some l.id) : Rewrites s s' id id :=
  rewrites_of_turns (turns_same hmessages hids fun id x hx => ⟨x, by rw [hrooms, hx], le_rfl⟩)
    (fun _ => ⟨rfl, rfl⟩) hpreviews hhidden hlinks

/-- One row is written. -/
def onRow (id : Ulid) (f : MessageLinkPreview → MessageLinkPreview) (r : MessageLinkPreview) :
    MessageLinkPreview := if r.id = id then f r else r

/-- **One row is written**, in a step that gives its message a number if it shows the row. -/
theorem rewrites_row {row : MessageLinkPreview} {f : MessageLinkPreview → MessageLinkPreview}
    {added : List (Ulid × List Char)} (hs : s.Sound c) (hrow : row ∈ s.tables.previews)
    (h : Turns s s' g none) (hsame : ∀ m, (g m).body = m.body ∧ (g m).deleted = m.deleted)
    (hpreviews : s'.tables.previews = s.tables.previews.map (onRow row.id f))
    (hf : ∀ r, (f r).id = r.id ∧ (f r).roomId = r.roomId ∧ (f r).messageId = r.messageId ∧
      (f r).url = r.url ∧ (f r).position = r.position)
    (hlinks : s'.tables.links = s.tables.links)
    (hlinked : (f row).status = .ok → ∃ l ∈ s.tables.links, (f row).linkPreviewId = some l.id)
    (hhidden : s'.hidden = s.hidden ++ added)
    (hadded : ∀ h ∈ added, h = (row.messageId, row.url))
    (hremoved : (f row).removedAt.isSome ↔ row.removedAt.isSome ∨ (row.messageId, row.url) ∈ added)
    (hsettled : row.status ≠ .pending →
      (f row).status = row.status ∧ (f row).linkPreviewId = row.linkPreviewId)
    (hshown : ∀ m ∈ s.tables.messages, m.id = row.messageId →
      PreviewTables.visible m row = true ∨ PreviewTables.visible m (f row) = true →
        (g m).changeSeq ≠ m.changeSeq) : Rewrites s s' (onRow row.id f) g := by
  have hother : ∀ {r}, r ∈ s.tables.previews → r = row ∧ onRow row.id f r = f row ∨
      r ≠ row ∧ onRow row.id f r = r := by
    intro r hr
    rw [onRow]
    split
    · next heq =>
      obtain rfl := hs.preview_eq hr hrow heq
      exact .inl ⟨rfl, rfl⟩
    · next hne => exact .inr ⟨fun heq => hne (by rw [heq]), rfl⟩
  refine ⟨h, hsame, hpreviews, fun r => ?_, fun hd x hx hok => ?_, ⟨added, hhidden, ?_, ?_⟩, ?_, ?_⟩
  · rw [onRow]
    split
    · exact hf r
    · exact ⟨rfl, rfl, rfl, rfl, rfl⟩
  · rw [hpreviews] at hx
    obtain ⟨r, hr, rfl⟩ := List.mem_map.mp hx
    rw [hlinks]
    rcases hother hr with ⟨rfl, heq⟩ | ⟨-, heq⟩
    · rw [heq] at hok ⊢
      exact hlinked hok
    · rw [heq] at hok ⊢
      exact hd r hr hok
  · intro e he
    rw [hadded e he]
    exact ⟨row, hrow, rfl, rfl⟩
  · intro r hr
    rcases hother hr with ⟨rfl, heq⟩ | ⟨hne, heq⟩
    · rw [heq]
      exact hremoved
    · rw [heq]
      refine ⟨.inl, fun h => h.resolve_right fun hmem => hne ?_⟩
      have hpair := hadded _ hmem
      exact hs.once r hr row hrow (congrArg Prod.fst hpair) (congrArg Prod.snd hpair)
  · intro r hr hsome
    rcases hother hr with ⟨rfl, heq⟩ | ⟨-, heq⟩
    · rw [heq]
      exact hsettled hsome
    · rw [heq]
      exact ⟨rfl, rfl⟩
  · rintro m hm ⟨r, hr, hne, hvisible⟩
    rcases hother hr with ⟨rfl, heq⟩ | ⟨-, heq⟩
    · rw [heq] at hvisible
      refine hshown m hm ?_ hvisible
      rcases hvisible with h | h
      · exact (of_decide_eq_true h).2.1.symm
      · exact (of_decide_eq_true h).2.1.symm.trans (hf r).2.2.1
    · exact absurd heq hne

/-! ## Actions -/

/-- A worker that completes a row with what was fetched has it. -/
def Ready (s : PreviewService) : Prop :=
  ∀ claimed link, .complete claimed .ok link ∈ s.workers → link.isSome

/-- **What a step does**: a message is sent, edited or deleted, or rows are rewritten. -/
inductive Effect (c : Unfolding) (s s' : PreviewService) : PreviewAction → Prop
  | sent {actor room : Ulid} {input : SendMessageInput} {suppressed : List (List Char)}
      {m : ChatMessage} {g : ChatMessage → ChatMessage} (h : Sends c s s' m suppressed g) :
      Effect c s s' (.sendMessage actor room input suppressed)
  | edited {actor room message : Ulid} {body : String} {m : ChatMessage}
      {g : ChatMessage → ChatMessage} (hid : m.id = message) (h : Edits c s s' m body g) :
      Effect c s s' (.editMessage actor room message body)
  | deleted {room message : Ulid} {m : ChatMessage} {g : ChatMessage → ChatMessage}
      (h : Deletes s s' m g) : Effect c s s' (.deleteMessage room message)
  | rewrites {a : PreviewAction} {f : MessageLinkPreview → MessageLinkPreview}
      {g : ChatMessage → ChatMessage} (h : Rewrites s s' f g) : Effect c s s' a

variable (hs : s.Sound c)
include hs

theorem sends_of_sendMessage {actor room : Ulid} {input : SendMessageInput}
    {suppressed : List (List Char)}
    (h : s.sendMessage c actor room input suppressed = some s') :
    ∃ m g, Sends c s s' m suppressed g := by
  rw [sendMessage] at h
  split at h
  · cases h
  · split at h
    · -- a message of its own
      obtain ⟨numbers, hnumbers, rfl⟩ := map_eq_some_iff.mp h
      obtain ⟨r, hr, hr'⟩ := bind_eq_some_iff.mp hnumbers
      have hlast := RoomRecord.lastChangeSeq_of_allocateMessageSeq hr'
      refine ⟨s.newMessage actor room input none numbers, id, ⟨?_, fun _ => ⟨rfl, rfl⟩, rfl, rfl,
        rfl, rfl, rfl, le_rfl⟩⟩
      refine turns_of_numbers hr (by rw [hlast]; exact Nat.le_succ _) rfl ?_
        (fun _ => ⟨rfl, rfl, rfl, rfl⟩) ?_ (fun _ _ => .inl rfl) fun m hm => ?_
      · rw [List.map_id]
        rfl
      · exact (Nat.le_succ _).trans (Nat.le_add_right _ _)
      · cases hm
        exact ⟨rfl, (Nat.lt_succ_self _).trans_le (Nat.le_add_right _ _), rfl, le_rfl,
          fun root hroot => absurd hroot (by simp [newMessage, RoomLedger.userMessage])⟩
    · next root _ =>
      -- a reply: its root gets a number too
      obtain ⟨x, hx, h⟩ := bind_eq_some_iff.mp h
      obtain ⟨hmem, hroom, hid⟩ := mem_of_getMessage hx
      split at h
      · obtain ⟨numbers, hnumbers, rfl⟩ := map_eq_some_iff.mp h
        obtain ⟨r, hr, hr'⟩ := bind_eq_some_iff.mp hnumbers
        have hlast := RoomRecord.lastChangeSeq_of_allocateThreadReplySeq hr'
        refine ⟨s.newMessage actor room input (some x) numbers,
          onMessage x.id (ChatMessage.addReply numbers.lastChangeSeq),
          ⟨?_, fun y => ?_, rfl, rfl, rfl, rfl, rfl, le_rfl⟩⟩
        · refine turns_of_numbers hr (by rw [hlast]; exact Nat.le_add_right _ _) rfl rfl
            (sameMessage_onMessage fun _ => ⟨rfl, rfl, rfl, rfl⟩) ?_ (fun y hy => ?_)
            fun m hm => ?_
          · exact (Nat.le_succ _).trans (Nat.le_add_right _ _)
          · have hlater : r.lastChangeSeq < numbers.lastChangeSeq := by
              rw [hlast]
              exact Nat.lt_add_of_pos_right Nat.two_pos
            exact (changeSeq_onMessage hs.toMessagesSound hmem rfl (fun _ => rfl) hy rfl).imp_right
              fun ⟨heq, hk⟩ => ⟨heq.trans hroom, hk ▸ hlater, hk.le⟩
          · cases hm
            refine ⟨rfl, (Nat.lt_succ_self _).trans_le (Nat.le_add_right _ _), rfl,
              Nat.sub_le _ _, fun root hroot => ⟨x, hmem, ?_, hroom⟩⟩
            exact some.inj hroot
        · rw [onMessage]
          split <;> exact ⟨rfl, rfl⟩
      · cases h

theorem edits_of_editMessage {actor room message : Ulid} {body : String}
    (h : s.editMessage c actor room message body = some s') :
    ∃ m g, m.id = message ∧ Edits c s s' m body g := by
  rw [editMessage] at h
  split at h
  · cases h
  · obtain ⟨m, hm, h⟩ := bind_eq_some_iff.mp h
    split at h
    · cases h
    · next hguard =>
      simp only [not_or, Bool.not_eq_true] at hguard
      obtain ⟨hkind, -, hlive, -⟩ := hguard
      obtain ⟨numbers, hnumbers, heq⟩ := map_eq_some_iff.mp h
      obtain ⟨hmem, hroom, hid⟩ := mem_of_getMessage hm
      set f := ChatMessage.edit body numbers.lastChangeSeq
      have hturns : Turns s s' (onMessage message f) none ∧
          (onMessage message f m).changeSeq ≠ m.changeSeq :=
        turns_touch hs.toMessagesSound hm hnumbers (by rw [← heq]; rfl)
          (fun _ => ⟨⟨rfl, rfl, rfl, rfl⟩, rfl⟩) (by rw [← heq]; rfl)
          (by rw [← heq]; exact Nat.le_add_right _ _)
      subst heq
      refine ⟨m, _, hid, hturns.1, hmem, ?_, hlive, fun x => ?_, fun x => ?_, hturns.2, rfl, rfl, rfl,
        le_rfl⟩
      · cases hk : m.kind with
        | user => rfl
        | system => exact absurd hk hkind
      · rw [onMessage]
        split <;> rfl
      · rw [onMessage, hid]
        split <;> rfl

theorem deletes_of_deleteMessage {room message : Ulid}
    (h : s.deleteMessage room message = some s') : ∃ m g, Deletes s s' m g := by
  obtain ⟨m, hm, h⟩ := bind_eq_some_iff.mp h
  split at h
  · cases h
  · obtain ⟨numbers, hnumbers, rfl⟩ := map_eq_some_iff.mp h
    obtain ⟨hmem, hroom, rfl⟩ := mem_of_getMessage hm
    obtain ⟨r, hr, hlast⟩ := allocateChangeSeq_eq_some hnumbers
    set n := if m.threadRootId.isSome then 2 else 1 with hn
    have hpos : 0 < n := by
      rw [hn]
      split <;> decide
    set soft := ChatMessage.softDelete (numbers.lastChangeSeq - n + 1)
    set less := ChatMessage.removeReply numbers.lastChangeSeq
    set g := fun x => onRoot m.threadRootId less (onMessage m.id soft x) with hg
    have hsame : ∀ x, SameMessage (g x) x := by
      intro x
      have hsoft : ∀ x, SameMessage (soft x) x := fun _ => ⟨rfl, rfl, rfl, rfl⟩
      have hless : ∀ x, SameMessage (less x) x := fun _ => ⟨rfl, rfl, rfl, rfl⟩
      obtain ⟨hid, hroom, hkind, hroot⟩ := sameMessage_onRoot hless (onMessage m.id soft x)
      obtain ⟨hid', hroom', hkind', hroot'⟩ := sameMessage_onMessage hsoft x
      exact ⟨hid.trans hid', hroom.trans hroom', hkind.trans hkind', hroot.trans hroot'⟩
    have hlater : r.lastChangeSeq < numbers.lastChangeSeq := by
      rw [hlast]
      exact Nat.lt_add_of_pos_right hpos
    -- the root has the last number, the message the one before it, if there is a root
    have hroot : ∀ x ∈ s.tables.messages, (g x).changeSeq = (onMessage m.id soft x).changeSeq ∨
        x.roomId = room ∧ (g x).changeSeq = numbers.lastChangeSeq := by
      intro x hx
      show (onRoot m.threadRootId less _).changeSeq = _ ∨
        _ ∧ (onRoot m.threadRootId less _).changeSeq = _
      cases hroot : m.threadRootId with
      | none => exact .inl rfl
      | some root =>
        obtain ⟨y, hy, hyid, hyroom⟩ := hs.roots m hmem root hroot
        refine (changeSeq_onMessage hs.toMessagesSound hy hyid (fun _ => rfl) hx ?_).imp_right
          fun ⟨heq, hk⟩ => ⟨heq.trans (hyroom.trans hroom), hk⟩
        rw [onMessage]
        split <;> rfl
    have hnumber : ∀ x ∈ s.tables.messages, x.id ≠ m.id ∧ (g x).changeSeq = x.changeSeq ∨
        x.roomId = room ∧ r.lastChangeSeq < (g x).changeSeq ∧
          (g x).changeSeq ≤ numbers.lastChangeSeq := by
      intro x hx
      rcases hroot x hx with heq | ⟨hof, heq⟩
      · rw [heq, onMessage]
        split
        · next hid =>
          obtain rfl := hs.message_eq hx hmem hid
          refine .inr ⟨hroom, ?_⟩
          show r.lastChangeSeq < numbers.lastChangeSeq - n + 1 ∧
            numbers.lastChangeSeq - n + 1 ≤ numbers.lastChangeSeq
          omega
        · next hne => exact .inl ⟨hne, rfl⟩
      · rw [heq]
        exact .inr ⟨hof, hlater, le_rfl⟩
    have hrest : ∀ x, (g x).body = (onMessage m.id soft x).body ∧
        (g x).deleted = (onMessage m.id soft x).deleted := by
      intro x
      show (onRoot m.threadRootId less _).body = _ ∧ (onRoot m.threadRootId less _).deleted = _
      cases m.threadRootId with
      | none => exact ⟨rfl, rfl⟩
      | some root =>
        show (onMessage root less _).body = _ ∧ (onMessage root less _).deleted = _
        rw [onMessage]
        split <;> exact ⟨rfl, rfl⟩
    obtain ⟨hmessages, hrooms, hpreviews, hlinks⟩ := messages_updateRoot
      ((s.tables.setRoom room numbers).updateMessage m.id soft) m.threadRootId less
    refine ⟨m, g, ?_, hmem, fun x => ?_, fun x hne => ?_, ?_, hlinks, ?_, rfl⟩
    · refine turns_of_numbers hr hlater.le hrooms ?_ hsame le_rfl
        (fun x hx => (hnumber x hx).imp_left fun h => h.2) nofun
      refine hmessages.trans ?_
      rw [toList_none, append_nil]
      exact List.map_map
    · rw [(hrest x).2, onMessage]
      split <;> rfl
    · rw [(hrest x).1, onMessage, if_neg hne]
    · rcases hnumber m hmem with ⟨hne, -⟩ | ⟨-, hlt, -⟩
      · exact absurd rfl hne
      · obtain ⟨x, hx, hle⟩ := hs.numbered m hmem
        obtain rfl := some.inj (hr.symm.trans (hroom ▸ hx))
        exact (hle.trans_lt hlt).ne'
    · exact congrArg (List.filter _) hpreviews

theorem rewrites_of_claim {preview : Ulid} (h : s.claim preview = some s') :
    ∃ f g, Rewrites s s' f g := by
  obtain ⟨row, hfound, rfl⟩ := map_eq_some_iff.mp h
  have hrow : row ∈ s.tables.previews := mem_of_find?_eq_some hfound
  have hfits := find?_some hfound
  obtain ⟨hid, hpending, -⟩ := of_decide_eq_true (Bool.and_eq_true_iff.mp hfits).1
  subst hid
  have hhidden : ∀ m, PreviewTables.visible m row = false := by
    intro m
    refine decide_eq_false fun h => ?_
    cases hpending.symm.trans h.2.2.1
  refine ⟨_, id, rewrites_row hs hrow (turns_same rfl le_rfl fun id x hx => ⟨x, hx, le_rfl⟩)
    (fun _ => ⟨rfl, rfl⟩) rfl (fun _ => ⟨rfl, rfl, rfl, rfl, rfl⟩) rfl
    (fun hok => hs.linked row hrow hok) (append_nil _).symm
    nofun (or_iff_left not_mem_nil).symm
    (fun hne => absurd hpending hne) fun m _ _ hvisible => ?_⟩
  rcases hvisible with h | h
  · cases (hhidden m).symm.trans h
  · cases (hhidden m).symm.trans h

omit hs

theorem rewrites_of_resolve {i : ℕ} (h : s.resolve i = some s') : Rewrites s s' id id := by
  have hgoes : ∀ w, Rewrites s (s.goes i w) id id :=
    fun w => rewrites_same rfl le_rfl rfl rfl rfl fun l hl => .inl hl
  rw [resolve] at h
  split at h
  · split at h
    · split at h
      · split at h <;> rw [← some.inj h] <;> exact hgoes _
      · rw [← some.inj h]
        exact hgoes _
    · rw [← some.inj h]
      exact hgoes _
  · cases h

theorem rewrites_of_fetch {i : ℕ} {result : Option Bool} (h : s.fetch i result = some s') :
    Rewrites s s' id id := by
  rw [fetch] at h
  split at h
  · split at h
    · rw [← some.inj h]
      exact rewrites_same rfl (Nat.le_succ _) rfl rfl rfl fun l hl => .inl (mem_append_left _ hl)
    · rw [← some.inj h]
      exact rewrites_same rfl (Nat.le_succ _) rfl rfl rfl fun l hl => .inl (mem_append_left _ hl)
    · rw [← some.inj h]
      exact rewrites_same rfl le_rfl rfl rfl rfl fun l hl => .inl hl
  · cases h

/-- Completing a row writes nothing else. -/
theorem tables_of_completePreview {id : Ulid} {status : LinkPreviewStatus} {link : Option Ulid}
    {d : PreviewTables} (h : s.completePreview id status link = some d) :
    d.rooms = s.tables.rooms ∧ d.messages = s.tables.messages ∧ d.links = s.tables.links := by
  rw [completePreview] at h
  split at h
  · rw [← some.inj h]
    exact ⟨rfl, rfl, rfl⟩
  · cases h

include hs

/-- A row is completed in tables that a step leaves. -/
theorem rewrites_of_completePreview {row : MessageLinkPreview} {status : LinkPreviewStatus}
    {link : Option Ulid} {d : PreviewTables} (hrow : row ∈ s.tables.previews)
    (hpending : row.status = .pending) (hlink : status = .ok → link.isSome)
    (hd : s.completePreview row.id status link = some d) (h : Turns s s' g none)
    (hsame : ∀ m, (g m).body = m.body ∧ (g m).deleted = m.deleted)
    (hpreviews : s'.tables.previews = d.previews) (hlinks : s'.tables.links = s.tables.links)
    (hhidden : s'.hidden = s.hidden)
    (hshown : status = .ok → row.removedAt = none → ∀ m ∈ s.tables.messages,
      m.id = row.messageId → (g m).changeSeq ≠ m.changeSeq) : ∃ f g, Rewrites s s' f g := by
  rw [completePreview] at hd
  split at hd
  · next hall =>
    cases hd
    refine ⟨_, g, rewrites_row hs hrow h hsame hpreviews (fun _ => ⟨rfl, rfl, rfl, rfl, rfl⟩) hlinks
      (fun hok => ?_) (hhidden.trans (append_nil _).symm)
      nofun (or_iff_left not_mem_nil).symm
      (fun hne => absurd hpending hne) fun m hm hid hvisible => ?_⟩
    · obtain ⟨id, hid⟩ := isSome_iff_exists.mp (hlink hok)
      subst hid
      obtain ⟨l, hl, heq⟩ := List.any_eq_true.mp ((all_some ..).symm.trans hall)
      exact ⟨l, hl, congrArg some (of_decide_eq_true heq).symm⟩
    · rcases hvisible with h | h
      · cases hpending.symm.trans (of_decide_eq_true h).2.2.1
      · obtain ⟨-, -, hok, hkept⟩ := of_decide_eq_true h
        exact hshown hok hkept m hm hid
  · cases hd

theorem rewrites_of_complete {i : ℕ} (hready : s.Ready)
    (h : s.complete i = some s') : ∃ f g, Rewrites s s' f g := by
  rw [complete] at h
  split at h
  · next claimed status link hworker =>
    split at h
    · next d hd =>
      have heq := some.inj h
      rw [completeLinkPreview] at hd
      split at hd
      · cases hd
      · next m hm =>
        split at hd
        · cases hd
        · next row hrow =>
          obtain ⟨hmem, hid, hof⟩ := mem_of_getPreview hrow
          have hlink : status = .ok → link.isSome := by
            rintro rfl
            exact hready claimed link (mem_of_getElem? hworker)
          rw [← hid] at hd
          split at hd
          · cases hd
          · next hguard =>
            have hpending : row.status = .pending := by
              by_contra hne
              exact hguard (Or.inl hne)
            split at hd
            · split at hd
              · -- the room is archived: what was fetched is not shown
                subst heq
                obtain ⟨hrooms, hmessages, hlinks⟩ := tables_of_completePreview hd
                exact rewrites_of_completePreview hs hmem hpending (fun h => absurd h (by simp)) hd
                  (turns_same hmessages le_rfl fun id x hx => ⟨x, (congrFun hrooms id).trans hx, le_rfl⟩)
                  (fun _ => ⟨rfl, rfl⟩) rfl hlinks rfl fun h => absurd h (by simp)
              · next numbers hnumbers =>
                obtain ⟨d', hd', hset⟩ := map_eq_some_iff.mp hd
                obtain ⟨hrooms, hmessages, hlinks⟩ := tables_of_completePreview hd'
                subst hset
                have hturns : Turns s s' (onMessage claimed.messageId
                      (ChatMessage.touch numbers.lastChangeSeq)) none ∧ _ :=
                  turns_touch hs.toMessagesSound hm hnumbers
                    (by rw [← heq]; exact congrArg (update · _ _) hrooms)
                    (fun _ => ⟨⟨rfl, rfl, rfl, rfl⟩, rfl⟩)
                    (by rw [← heq]; exact congrArg (List.map _) hmessages) (by rw [← heq])
                subst heq
                refine rewrites_of_completePreview hs hmem hpending hlink hd' hturns.1 (fun x => ?_) rfl
                  hlinks rfl fun _ _ x hx hxid => ?_
                · rw [onMessage]
                  split <;> exact ⟨rfl, rfl⟩
                · obtain ⟨hm, -, hmid⟩ := mem_of_getMessage hm
                  rw [hs.message_eq hx hm (hxid.trans (hof.trans hmid.symm))]
                  exact hturns.2
            · next hnot =>
              subst heq
              obtain ⟨hrooms, hmessages, hlinks⟩ := tables_of_completePreview hd
              exact rewrites_of_completePreview hs hmem hpending hlink hd
                (turns_same hmessages le_rfl fun id x hx => ⟨x, (congrFun hrooms id).trans hx, le_rfl⟩)
                (fun _ => ⟨rfl, rfl⟩) rfl hlinks rfl fun hok hkept => absurd ⟨hok, hkept⟩ hnot
    · rw [← some.inj h]
      exact ⟨id, id, rewrites_same rfl le_rfl rfl rfl rfl fun l hl => .inl hl⟩
  · cases h

theorem rewrites_of_removeLinkPreview {actor preview : Ulid}
    (h : s.removeLinkPreview actor room message preview = some s') : ∃ f g, Rewrites s s' f g := by
  obtain ⟨m, hm, h⟩ := bind_eq_some_iff.mp h
  obtain ⟨hmem, -, hmid⟩ := mem_of_getMessage hm
  split at h
  · cases h
  · obtain ⟨row, hrow, h⟩ := bind_eq_some_iff.mp h
    obtain ⟨hrowmem, hid, hof⟩ := mem_of_getPreview hrow
    subst hid
    split at h
    · cases h
    · next hkept =>
      have hpair : (message, row.url) = (row.messageId, row.url) := by rw [hof]
      have hadded : ∀ e ∈ [(message, row.url)], e = (row.messageId, row.url) :=
        fun e he => (mem_singleton.mp he).trans hpair
      have hremoved : ∀ {b : Bool}, (some s.clock).isSome ↔
          b ∨ (row.messageId, row.url) ∈ [(message, row.url)] :=
        ⟨fun _ => .inr (mem_singleton.mpr hpair.symm), fun _ => rfl⟩
      simp only at h
      split at h
      · next hnot =>
        -- nobody sees the row: no number is needed
        cases h
        refine ⟨_, id, rewrites_row hs hrowmem
          (turns_same rfl le_rfl fun id x hx => ⟨x, hx, le_rfl⟩) (fun _ => ⟨rfl, rfl⟩) rfl
          (fun _ => ⟨rfl, rfl, rfl, rfl, rfl⟩) rfl (fun hok => hs.linked row hrowmem hok) rfl hadded
          hremoved (fun _ => ⟨rfl, rfl⟩) fun x _ _ hvisible => ?_⟩
        rcases hvisible with h | h <;> exact absurd (of_decide_eq_true h).2.2.1 hnot
      · obtain ⟨numbers, hnumbers, heq⟩ := map_eq_some_iff.mp h
        have hturns : Turns s s' (onMessage message (ChatMessage.touch numbers.lastChangeSeq)) none ∧
            _ := turns_touch hs.toMessagesSound hm hnumbers (by rw [← heq]; rfl)
          (fun _ => ⟨⟨rfl, rfl, rfl, rfl⟩, rfl⟩) (by rw [← heq]; rfl) (by rw [← heq])
        subst heq
        refine ⟨_, _, rewrites_row hs hrowmem hturns.1 (fun x => ?_) rfl
          (fun _ => ⟨rfl, rfl, rfl, rfl, rfl⟩) rfl (fun hok => hs.linked row hrowmem hok) rfl hadded
          hremoved (fun _ => ⟨rfl, rfl⟩) fun x hx hxid _ => ?_⟩
        · rw [onMessage]
          split <;> exact ⟨rfl, rfl⟩
        · rw [hs.message_eq hx hmem (hxid.trans (hof.trans hmid.symm))]
          exact hturns.2

/-- **Each step is one of four.** -/
theorem effect_of_act (hready : s.Ready) (h : s.act c a = some s') : Effect c s s' a := by
  cases a with
  | sendMessage =>
    obtain ⟨m, g, h⟩ := sends_of_sendMessage hs h
    exact Effect.sent h
  | editMessage =>
    obtain ⟨m, g, hid, h⟩ := edits_of_editMessage hs h
    exact Effect.edited hid h
  | removeLinkPreview =>
    obtain ⟨f, g, h⟩ := rewrites_of_removeLinkPreview hs h
    exact Effect.rewrites h
  | deleteMessage =>
    obtain ⟨m, g, h⟩ := deletes_of_deleteMessage hs h
    exact Effect.deleted h
  | claim =>
    obtain ⟨f, g, h⟩ := rewrites_of_claim hs h
    exact Effect.rewrites h
  | resolve => exact Effect.rewrites (rewrites_of_resolve h)
  | fetch => exact Effect.rewrites (rewrites_of_fetch h)
  | complete =>
    obtain ⟨f, g, h⟩ := rewrites_of_complete hs hready h
    exact Effect.rewrites h
  | fail =>
    rw [act] at h
    split at h
    · rw [← some.inj h]
      exact Effect.rewrites (rewrites_same rfl le_rfl rfl rfl rfl fun l hl => .inl hl)
    · cases h
  | previewLink =>
    rw [act] at h
    split at h
    · rw [← some.inj h]
      exact Effect.rewrites (rewrites_same rfl (Nat.le_succ _) rfl rfl rfl
        fun l hl => .inl (mem_append_left _ hl))
    · cases h
  | cleanup links =>
    rw [act] at h
    split at h
    · next hall =>
      rw [← some.inj h]
      refine Effect.rewrites (rewrites_same rfl le_rfl rfl rfl rfl fun l hl => ?_)
      by_cases hmem : l.id ∈ links
      · exact .inr (of_decide_eq_true (List.all_eq_true.mp hall l hl) hmem).2
      · exact .inl (mem_filter.mpr ⟨hl, decide_eq_true hmem⟩)
    · cases h
  | touch _ message =>
    obtain ⟨m, hm, h⟩ := bind_eq_some_iff.mp h
    obtain ⟨numbers, hnumbers, heq⟩ := map_eq_some_iff.mp h
    have hturns : Turns s s' (onMessage message (ChatMessage.touch numbers.lastChangeSeq)) none ∧ _ :=
      turns_touch hs.toMessagesSound hm hnumbers (by rw [← heq]; rfl)
        (fun _ => ⟨⟨rfl, rfl, rfl, rfl⟩, rfl⟩) (by rw [← heq]; rfl) (by rw [← heq])
    subst heq
    refine Effect.rewrites (rewrites_of_turns hturns.1 (fun x => ?_) rfl rfl fun l hl => .inl hl)
    rw [onMessage]
    split <;> exact ⟨rfl, rfl⟩
  | archive room =>
    obtain ⟨r, hr, rfl⟩ := map_eq_some_iff.mp h
    refine Effect.rewrites (rewrites_of_turns (turns_same rfl le_rfl fun id x hx => ?_)
      (fun _ => ⟨rfl, rfl⟩) rfl rfl fun l hl => .inl hl)
    show ∃ x', update s.tables.rooms room _ id = some x' ∧ _
    by_cases heq : id = room
    · subst heq
      obtain rfl := some.inj (hr.symm.trans hx)
      exact ⟨_, update_self .., le_rfl⟩
    · exact ⟨x, (update_of_ne heq ..).trans hx, le_rfl⟩
  | tick =>
    rw [← some.inj h]
    exact Effect.rewrites (rewrites_same rfl le_rfl rfl rfl rfl fun l hl => .inl hl)

omit hs

theorem Effect.sound (h : Effect c s s' a) (hs : s.Sound c) : s'.Sound c := by
  cases h with
  | sent h => exact h.sound hs
  | edited _ h => exact h.sound hs
  | deleted h => exact h.sound hs
  | rewrites h => exact h.sound hs

end PreviewService

end Hibari
