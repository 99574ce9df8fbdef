import Hibari.AttachmentRows

/-!
# What holds whenever calls run

In every state that is reached, whatever calls run at once: no row is locked twice, no id that is
drawn is there already or is drawn twice (`Drawn`), every call goes by what is there, and the tables
are sound (`Sound`).
-/

namespace Hibari

open List Option Function AttachmentTables AttachmentWrite HeldRows Bool

namespace AttachmentTask

/-- The id of a message that is about to be written. -/
def newMessage : AttachmentTask → List Ulid
  | attachToMessage m _ _ | attaching m _ _ _ _ => [m.id]
  | commit w => w.newMessages.map fun m => m.id
  | _ => []

/-- The id of an attachment that is about to be written, or whose URL is about to be signed. -/
def newAttachment : AttachmentTask → List Ulid
  | insertAttachment row => [row.id]
  | presignPut key => [key.attachmentId]
  | _ => []

end AttachmentTask

namespace AttachmentService

variable {actor id room : Ulid} {input : SendMessageInput} {root : Option ChatMessage}
    {numbers : RoomRecord} {d : AttachmentTables} {locks : List AttachmentLock}
    {row : AttachmentRow} {rows : List AttachmentRow} {new : List ChatMessage}

/-- **Ids that are drawn** are no others. -/
structure Drawn (s : AttachmentService) : Prop where
  messages : ∀ m ∈ s.tables.messages, m.id < s.ids
  attachments : ∀ r ∈ s.tables.attachments, r.id < s.ids
  newMessage : ∀ t ∈ s.tasks, ∀ id ∈ t.newMessage, id < s.ids ∧
    id ∉ s.tables.messages.map fun m => m.id
  newAttachment : ∀ t ∈ s.tasks, ∀ id ∈ t.newAttachment, id < s.ids
  inserted : ∀ row, .insertAttachment row ∈ s.tasks →
    row.id ∉ s.tables.attachments.map AttachmentRow.id
  messagesApart : HeldRows.Apart AttachmentTask.newMessage s.tasks
  attachmentsApart : HeldRows.Apart AttachmentTask.newAttachment s.tasks

/-- **A service that is sound.** -/
structure Sound (s : AttachmentService) : Prop where
  tables : s.tables.Sound
  apart : HeldRows.Apart AttachmentTask.held s.tasks
  drawn : s.Drawn
  fits : ∀ t ∈ s.tasks, t.Fits s.tables

variable {s s' : AttachmentService} {a : AttachmentAction} {t : AttachmentTask} {i : ℕ}

/-! ## A call goes on -/

theorem fits_begins (c : AttachmentCall) : c.begins.Fits s.tables := by
  cases c with
  | sendMessage _ _ input =>
    simp only [AttachmentCall.begins]
    split
    · next herrors =>
      -- a body that may be sent is not blank, or has attachments
      intro hblank hnil
      have hbody : validateBody input.body (decide (0 < input.attachmentIds.length)) = [] := by
        simp only [SendMessageInput.fieldErrors, append_eq_nil_iff] at herrors
        exact herrors.1.1.2
      rw [hnil] at hbody
      unfold validateBody at hbody
      rw [if_pos (by simp [hblank])] at hbody
      cases hbody
    · exact trivial
  | editMessage _ _ _ body =>
    simp only [AttachmentCall.begins]
    split
    · next herrors =>
      cases hblank : GoText.blank body with
      | false => exact hblank
      | true =>
        unfold validateBody at herrors
        rw [if_pos (by simp [hblank])] at herrors
        cases herrors
    · exact trivial
  | _ => exact trivial

theorem isNew_newMessage (h : (AttachmentTask.allocateSeq actor room input root).Fits s.tables)
    (hnumbers : s.sendNumbers room input root = some numbers) :
    s.tables.IsNew (s.newMessage actor room input root numbers) input.attachmentIds := by
  obtain ⟨r, hr, -⟩ := bind_eq_some_iff.mp hnumbers
  have hroom : (s.tables.rooms room).isSome := isSome_of_mem hr
  cases root with
  | none => exact ⟨hroom, fun root hroot => absurd hroot (not_mem_none _), ⟨rfl, rfl, rfl⟩, h.1⟩
  | some x =>
    refine ⟨hroom, fun root hroot => ?_, ⟨rfl, rfl, rfl⟩, h.1⟩
    cases hroot
    obtain ⟨hx, hsame, hnone⟩ := h.2 x rfl
    exact ⟨x, hx, rfl, hsame, hnone⟩

/-- **What a call goes by next is there.** -/
theorem fits_turn (h : t.Fits s.tables) : (s.turn t).Fits (s.effect t).tables := by
  cases t with
  | sendMessage =>
    simp only [turn]
    split
    · exact trivial
    · split
      · exact h
      · exact ⟨h, fun x hx => absurd hx (not_mem_none _)⟩
  | sendThreadReply =>
    simp only [turn]
    split
    · next m hm =>
      obtain ⟨hmem, hroom, -⟩ := mem_of_getMessage hm
      split
      · next hroot =>
        refine ⟨h, fun x hx => ?_⟩
        cases hx
        refine ⟨hmem, hroom, ?_⟩
        unfold isThreadRoot at hroot
        split at hroot
        · cases hroot
        · next hnone => exact hnone
      · exact trivial
    · exact trivial
  | allocateSeq _ room input root =>
    simp only [turn, effect]
    cases hnumbers : s.sendNumbers room input root with
    | none => exact trivial
    | some => exact isNew_newMessage h hnumbers
  | attachToMessage m numbers ids =>
    exact ⟨h, fun id hid => absurd hid not_mem_nil, filter_sublist⟩
  | attaching _ _ _ todo =>
    obtain ⟨hnew, htakes, hsub⟩ := h
    cases todo with
    | nil =>
      rw [append_nil] at hsub
      simp only [turn]
      split
      · next hlength =>
        obtain rfl := hsub.eq_of_length hlength
        exact ⟨hnew, htakes⟩
      · exact trivial
    | cons =>
      simp only [turn]
      split
      · next hany =>
        refine ⟨hnew, fun x hx => ?_, by rwa [append_assoc]⟩
        rcases mem_append.mp hx with hx | hx
        · exact htakes x hx
        · obtain rfl := mem_singleton.mp hx
          exact exists_of_any_getAttachment hany
      · refine ⟨hnew, htakes, List.Sublist.trans ?_ hsub⟩
        exact List.Sublist.append_left (sublist_cons_self _ _) _
  | editMessage => exact h
  | lockEdited =>
    simp only [turn]
    split
    · next m hm =>
      obtain ⟨hmem, -, -⟩ := mem_of_getMessage hm
      split
      · exact trivial
      · next hkind =>
        split
        · exact trivial
        · split
          · exact trivial
          · next hdeleted =>
            split
            · exact trivial
            · refine ⟨⟨hmem, ?_, by simpa using hdeleted⟩, h⟩
              cases hk : m.kind with
              | user => rfl
              | system => exact absurd hk hkind
    · exact trivial
  | deleteMessage =>
    simp only [turn]
    split
    · next m hm =>
      obtain ⟨hmem, -, -⟩ := mem_of_getMessage hm
      split
      · exact trivial
      · next hkind =>
        split
        · exact trivial
        · next hdeleted =>
          refine ⟨⟨hmem, ?_, by simpa using hdeleted⟩, fun id hid => absurd hid (not_mem_none _)⟩
          cases hk : m.kind with
          | user => rfl
          | system => exact absurd hk hkind
    · exact trivial
  | lockMessage =>
    simp only [turn]
    split
    · next m hm =>
      obtain ⟨hmem, -, -⟩ := mem_of_getMessage hm
      split
      · exact trivial
      · next hnot =>
        obtain ⟨hkind, hdeleted⟩ := not_or.mp hnot
        refine ⟨hmem, ?_, by simpa using hdeleted⟩
        cases hk : m.kind with
        | user => rfl
        | system => exact absurd hk hkind
    · exact trivial
  | deleteMessageAttachment =>
    simp only [turn]
    split
    · next hany =>
      obtain ⟨r, hr, hid, hboth⟩ := exists_of_any_getAttachment hany
      exact ⟨h, r, hr, hid, (and_eq_true_iff.mp hboth).2⟩
    · exact h
  | countMessageAttachments m attachment =>
    simp only [turn]
    split
    · refine ⟨h.1, fun id hid => ?_⟩
      cases hid
      exact h.2
    · next hnot =>
      refine ⟨h.1, h.2, ?_⟩
      cases hblank : GoText.blank m.body with
      | false => exact .inl hblank
      | true =>
        -- somebody was counted
        have hpos : (s.tables.attachments.filter fun r =>
            decide (r.roomId = m.roomId) && r.attachedTo m.id && decide (r.id ≠ attachment)) ≠ [] :=
          fun hnil => hnot ⟨by rw [hnil]; rfl, hblank⟩
        obtain ⟨r, hr⟩ := exists_mem_of_ne_nil _ hpos
        obtain ⟨hmem, htest⟩ := mem_filter.mp hr
        obtain ⟨hboth, hne⟩ := and_eq_true_iff.mp htest
        exact .inr ⟨r, hmem, (and_eq_true_iff.mp hboth).2, of_decide_eq_true hne⟩
  | allocateEdit | allocateChange =>
    simp only [turn]
    split
    · next numbers hnumbers =>
      obtain ⟨r, hr, -⟩ := bind_eq_some_iff.mp hnumbers
      exact ⟨h.1, isSome_of_mem hr, h.2⟩
    · exact trivial
  | softDeleteMessage =>
    simp only [turn]
    split
    · exact h
    · exact trivial
  | allocateDelete m =>
    simp only [turn]
    split
    · next numbers hnumbers =>
      obtain ⟨r, hr, -⟩ := bind_eq_some_iff.mp hnumbers
      have hroom : (s.tables.rooms m.roomId).isSome := isSome_of_mem hr
      split
      · next id =>
        refine ⟨h.1, hroom, fun id' hid' => ?_⟩
        rw [mem_singleton.mp hid']
        exact h.2 id rfl
      · exact ⟨h.1, hroom⟩
    · exact trivial
  | markMessageAttachmentsDeleted =>
    exact ⟨h.1, h.2, fun _ hmem => absurd hmem not_mem_nil⟩
  | marking _ _ todo =>
    obtain ⟨hlive, hroom, hmarked⟩ := h
    cases todo with
    | nil => exact ⟨hlive, hroom, hmarked⟩
    | cons =>
      simp only [turn]
      split
      · next hany =>
        refine ⟨hlive, hroom, fun x hx => ?_⟩
        rcases mem_append.mp hx with hx | hx
        · exact hmarked x hx
        · rw [mem_singleton.mp hx]
          obtain ⟨r, hr, hid, hboth⟩ := exists_of_any_getAttachment hany
          exact ⟨r, hr, hid, (and_eq_true_iff.mp hboth).2⟩
      · exact ⟨hlive, hroom, hmarked⟩
  | createAttachment => exact ⟨rfl, rfl⟩
  | completeAttachment =>
    simp only [turn]
    split
    · repeat' split
      all_goals exact trivial
    · exact trivial
  | headObject =>
    simp only [turn]
    split
    · exact trivial
    · split <;> exact trivial
  | rereadAttachment =>
    simp only [turn]
    split
    · split <;> exact trivial
    · exact trivial
  | enqueueRoomStorageDeletions =>
    refine ⟨fun r hr hroom => ?_, fun e he => ?_⟩
    · exact List.mem_map.mpr ⟨_, List.mem_map.mpr ⟨r, mem_filter.mpr
        ⟨hr, decide_eq_true hroom⟩, rfl⟩, rfl⟩
    · obtain ⟨r, hr, rfl⟩ := List.mem_map.mp he
      exact of_decide_eq_true (mem_filter.mp hr).2
  | cascade =>
    refine ⟨fun id hid => ?_, fun m hm hroom => ?_, fun r hr hroom => ⟨?_, h.1 r hr hroom⟩, h.2⟩
    · obtain ⟨m, hm, rfl⟩ := List.mem_map.mp hid
      exact List.mem_map.mpr ⟨m, mem_of_mem_filter hm, rfl⟩
    · exact List.mem_map.mpr ⟨m, mem_filter.mpr ⟨hm, decide_eq_true hroom⟩, rfl⟩
    · exact List.mem_map.mpr ⟨r, mem_filter.mpr ⟨hr, decide_eq_true hroom⟩, rfl⟩
  | lockAttachmentsForCleanup =>
    intro r hr
    obtain ⟨hmem, hdue, -⟩ := mem_dueAttachments hr
    exact ⟨hmem, (of_decide_eq_true hdue).1⟩
  | deleteObjects _ todo =>
    cases todo with
    | nil => exact fun r hr => h r (by rwa [append_nil])
    | cons => exact fun x hx => h x (by rwa [append_cons])
  | lockDueStorageDeletions => exact fun e he => (mem_dueStorageDeletions he).1
  | deleteDueObjects _ todo =>
    cases todo with
    | nil => exact fun e he => h e (by rwa [append_nil])
    | cons => exact fun x hx => h x (by rwa [append_cons])
  | presignPut key | deleteMismatched key | cleanupAttachmentBatch | cleanupStorageDeletionBatch
  | commit | done => exact trivial
  | _ =>
    simp only [turn]
    split <;> exact trivial

/-- A message that a call has locked is there. -/
theorem exists_of_held (hd : d.Sound) (h : t.Fits d)
    (hl : .message id ∈ t.held) : id ∈ d.messages.map fun m => m.id := by
  have hmine : ∀ {m : ChatMessage} {locks : List AttachmentLock}, d.Live m →
      .message id ∈ .message m.id :: locks → .message id ∉ locks →
        id ∈ d.messages.map fun m => m.id := by
    intro m locks hm hmem hnot
    rcases mem_cons.mp hmem with heq | hmem
    · obtain rfl : id = m.id := by simpa using heq
      exact List.mem_map.mpr ⟨m, hm.1, rfl⟩
    · exact absurd hmem hnot
  cases t with
  | allocateSeq =>
    rcases mem_cons.mp hl with heq | hl
    · cases heq
    · obtain ⟨x, hx, heq⟩ := List.mem_map.mp hl
      obtain rfl : x.id = id := by simpa using heq
      exact List.mem_map.mpr ⟨x, (h.2 x (mem_toList.mp hx)).1, rfl⟩
  | attachToMessage => exact h.root.exists_of_sendLocks hl
  | attaching =>
    exact h.1.root.exists_of_sendLocks ((mem_append.mp hl).resolve_right (by simp))
  | allocateEdit m =>
    obtain rfl : id = m.id := by simpa [AttachmentTask.held] using hl
    exact List.mem_map.mpr ⟨m, h.1.1, rfl⟩
  | deleteMessageAttachment | checkAlreadyDeleted =>
    exact hmine h hl (by simp)
  | countMessageAttachments m attachment | allocateChange m attachment
  | softDeleteMessage => exact hmine h.1 hl (by simp)
  | allocateDelete | markMessageAttachmentsDeleted =>
    exact hd.exists_of_deleteLocks h.1 ((mem_append.mp hl).resolve_right (by simp))
  | marking =>
    refine hd.exists_of_deleteLocks h.1 ?_
    simpa [AttachmentTask.held] using hl
  | sendThreadReply actor room root input | lockEdited actor room message body
  | enqueueRoomStorageDeletions room | cascade room deletions | deleteObjects gone todo
  | deleteDueObjects => exact absurd hl (by simp [AttachmentTask.held])
  | commit => exact hd.exists_of_held h hl
  | _ => cases hl

/-! ## What a step leaves of the tables -/

/-- **What a call writes** leaves the tables as they are, adds an attachment, marks one as uploaded
or is a commit. -/
theorem tables_effect (t : AttachmentTask) : (s.effect t).tables = s.tables ∨
    (∃ row, t = .insertAttachment row ∧ (s.tables.rooms row.roomId).isSome ∧
      (s.effect t).tables = { s.tables with attachments := s.tables.attachments ++ [row] }) ∨
    (∃ id, t = .markAttachmentUploaded id ∧ (s.effect t).tables = { s.tables with
      attachments := s.tables.attachments.map fun r =>
        if r.id = id ∧ r.status = .pending then { r with status := .uploaded } else r }) ∨
    ∃ w, t = .commit w ∧ (s.effect t).tables = s.tables.perform w := by
  cases t with
  | insertAttachment row =>
    simp only [effect]
    split
    · next hroom => exact .inr (.inl ⟨row, rfl, hroom, rfl⟩)
    · exact .inl rfl
  | markAttachmentUploaded id => exact .inr (.inr (.inl ⟨id, rfl, rfl⟩))
  | commit w => exact .inr (.inr (.inr ⟨w, rfl, rfl⟩))
  | allocateSeq =>
    simp only [effect]
    split <;> exact .inl rfl
  | deleteObjects _ todo | deleteDueObjects _ todo => cases todo <;> exact .inl rfl
  | _ => exact .inl rfl

theorem SparesRows.refl (locks : List AttachmentLock) (d : AttachmentTables) : SparesRows locks d d where
  message := fun _ hm _ => hm
  attachedTo := fun _ _ _ _ => .rfl
  attachment := fun _ hr _ => hr
  room := fun _ _ => rfl
  inRoom := fun m hm _ => ⟨m, hm, rfl, rfl⟩
  roomKey := fun r hr _ => ⟨r, hr, rfl, rfl⟩
  storageDeletion := fun _ he _ => he

/-- A new attachment spares what is locked, if the key of its room is not. -/
theorem spares_insert (hstatus : row.status = .pending) (hl : .roomKey row.roomId ∉ locks) :
    SparesRows locks d { d with attachments := d.attachments ++ [row] } where
  message := fun _ hm _ => hm
  attachedTo := by
    intro id _ r hattached
    refine ⟨fun hr => ?_, fun hr => mem_append_left _ hr⟩
    rcases mem_append.mp hr with hr | hr
    · exact hr
    · obtain rfl := mem_singleton.mp hr
      cases hstatus.symm.trans (of_decide_eq_true hattached).2
  attachment := fun _ hr _ => mem_append_left _ hr
  room := fun _ _ => rfl
  inRoom := fun m hm _ => ⟨m, hm, rfl, rfl⟩
  roomKey := by
    intro r hr hlock
    rcases mem_append.mp hr with hr | hr
    · exact ⟨r, hr, rfl, rfl⟩
    · obtain rfl := mem_singleton.mp hr
      exact absurd hlock hl
  storageDeletion := fun _ he _ => he

/-- The attachments after one was marked as uploaded. -/
theorem mem_markUploaded {r' : AttachmentRow} :
    r' ∈ (rows.map fun r => if r.id = id ∧ r.status = .pending then
      { r with status := .uploaded } else r) ↔
    (∃ r ∈ rows, (r.id = id ∧ r.status = .pending) ∧ { r with status := .uploaded } = r') ∨
      (r' ∈ rows ∧ ¬ (r'.id = id ∧ r'.status = .pending)) := by
  constructor
  · intro h
    obtain ⟨r, hr, rfl⟩ := List.mem_map.mp h
    split
    · next hboth => exact .inl ⟨r, hr, hboth, rfl⟩
    · next hnot => exact .inr ⟨hr, hnot⟩
  · rintro (⟨r, hr, hboth, rfl⟩ | ⟨hr, hnot⟩)
    · exact List.mem_map.mpr ⟨r, hr, if_pos hboth⟩
    · exact List.mem_map.mpr ⟨r', hr, if_neg hnot⟩

/-- Marking an attachment as uploaded spares what is locked, if it is not. -/
theorem spares_markUploaded
    (hl : ∀ r ∈ d.attachments, r.id = id → r.status = .pending → .attachment id ∉ locks) :
    SparesRows locks d { d with attachments := d.attachments.map fun r =>
      if r.id = id ∧ r.status = .pending then { r with status := .uploaded } else r } where
  message := fun _ hm _ => hm
  attachedTo := by
    intro message _ r hattached
    obtain ⟨-, hstatus⟩ := of_decide_eq_true hattached
    refine mem_markUploaded.trans ⟨fun h => ?_, fun hr => .inr ⟨hr, fun hboth => ?_⟩⟩
    · rcases h with ⟨r₀, hr₀, -, rfl⟩ | ⟨hr, -⟩
      · cases hstatus
      · exact hr
    · cases hstatus.symm.trans hboth.2
  attachment := by
    intro r hr hlock
    refine mem_markUploaded.mpr (.inr ⟨hr, fun hboth => ?_⟩)
    exact hl r hr hboth.1 hboth.2 (hboth.1 ▸ hlock)
  room := fun _ _ => rfl
  inRoom := fun m hm _ => ⟨m, hm, rfl, rfl⟩
  roomKey := by
    intro r' hr' _
    rcases mem_markUploaded.mp hr' with ⟨r, hr, -, rfl⟩ | ⟨hr, -⟩
    · exact ⟨r, hr, rfl, rfl⟩
    · exact ⟨r', hr, rfl, rfl⟩
  storageDeletion := fun _ he _ => he

/-- A log line, or a room that is archived, spares what is locked, if the room is not. -/
theorem spares_setRoom (hl : .room room ∉ locks) (hnew : ∀ m ∈ new, m.roomId = room) :
    SparesRows locks d { d.setRoom room numbers with messages := d.messages ++ new } where
  message := fun _ hm _ => mem_append_left _ hm
  attachedTo := fun _ _ _ _ => .rfl
  attachment := fun _ hr _ => hr
  room := fun id hlock => update_of_ne (fun heq : id = room => hl (heq ▸ hlock)) _ _
  inRoom := by
    intro m hm hlock
    rcases mem_append.mp hm with hm | hm
    · exact ⟨m, hm, rfl, rfl⟩
    · exact absurd (hnew m hm ▸ hlock) hl
  roomKey := fun r hr _ => ⟨r, hr, rfl, rfl⟩
  storageDeletion := fun _ he _ => he

/-! ## Tables stay sound -/

/-- What becomes of attachments that are new or marked does not concern messages. -/
theorem sound_of_attachments (hd : d.Sound) (hnodup : (rows.map AttachmentRow.id).Nodup)
    (hattached : ∀ r id, r.attachedTo id = true → r ∈ d.attachments → r ∈ rows)
    (hrows : ∀ r ∈ rows, (∃ r₀ ∈ d.attachments, r₀.roomId = r.roomId ∧ r₀.uploaderId = r.uploaderId ∧
        r₀.messageId = r.messageId ∧ (r₀.status = r.status ∨ r₀.status = .pending ∧ r.status = .uploaded)) ∨
      (d.rooms r.roomId).isSome ∧ r.messageId = none ∧ r.status = .pending) :
    AttachmentTables.Sound { d with attachments := rows } where
  messages := hd.messages
  attachments := hnodup
  roots := hd.roots
  replies := hd.replies
  content := by
    intro m hm
    rcases hd.content m hm with hbody | ⟨r, hr, ha⟩
    · exact .inl hbody
    · exact .inr ⟨r, hattached r m.id ha hr, ha⟩
  sent := by
    intro r hr
    rcases hrows r hr with ⟨r₀, hr₀, -, -, hmessage, hstatus⟩ | ⟨-, hmessage, hstatus⟩
    · have hsent := hd.sent r₀ hr₀
      rw [hmessage] at hsent
      rcases hstatus with hstatus | ⟨hpending, huploaded⟩
      · rwa [hstatus] at hsent
      · rw [hsent, hpending, huploaded]
        simp
    · rw [hmessage, hstatus]
      simp
  ofMessage := by
    intro r hr id hid
    rcases hrows r hr with ⟨r₀, hr₀, hroom, huploader, hmessage, -⟩ | ⟨-, hmessage, -⟩
    · rw [← hroom, ← huploader]
      exact hd.ofMessage r₀ hr₀ id (hmessage ▸ hid)
    · rw [hmessage] at hid
      exact absurd hid (not_mem_none _)
  inRoom := hd.inRoom
  ofRoom := by
    intro r hr
    rcases hrows r hr with ⟨r₀, hr₀, hroom, -⟩ | ⟨hroom, -⟩
    · exact hroom ▸ hd.ofRoom r₀ hr₀
    · exact hroom
  gone := hd.gone

theorem sound_insert (hd : d.Sound)
    (hrow : row.status = .pending ∧ row.messageId = none) (hroom : (d.rooms row.roomId).isSome)
    (hnew : row.id ∉ d.attachments.map AttachmentRow.id) :
    AttachmentTables.Sound { d with attachments := d.attachments ++ [row] } := by
  refine sound_of_attachments hd ?_ (fun r _ _ hr => mem_append_left _ hr) fun r hr => ?_
  · rw [map_append, map_singleton]
    exact nodup_append.mpr ⟨hd.attachments, nodup_singleton _,
      fun id hid id' hid' heq => hnew (by rwa [← mem_singleton.mp hid', ← heq])⟩
  · rcases mem_append.mp hr with hr | hr
    · exact .inl ⟨r, hr, rfl, rfl, rfl, .inl rfl⟩
    · obtain rfl := mem_singleton.mp hr
      exact .inr ⟨hroom, hrow.2, hrow.1⟩

theorem map_id_markUploaded (rows : List AttachmentRow) (id : Ulid) :
    (rows.map fun r => if r.id = id ∧ r.status = .pending then
      { r with status := .uploaded } else r).map AttachmentRow.id = rows.map AttachmentRow.id := by
  rw [List.map_map]
  refine map_congr_left fun r _ => ?_
  show (if _ then _ else _ : AttachmentRow).id = r.id
  split <;> rfl

theorem sound_markUploaded (hd : d.Sound) (id : Ulid) :
    AttachmentTables.Sound { d with attachments := d.attachments.map fun r =>
      if r.id = id ∧ r.status = .pending then { r with status := .uploaded } else r } := by
  refine sound_of_attachments hd ?_ (fun r message ha hr => ?_) fun r' hr' => ?_
  · rw [map_id_markUploaded]
    exact hd.attachments
  · refine mem_markUploaded.mpr (.inr ⟨hr, fun hboth => ?_⟩)
    cases (of_decide_eq_true ha).2.symm.trans hboth.2
  · rcases mem_markUploaded.mp hr' with ⟨r, hr, hboth, rfl⟩ | ⟨hr, -⟩
    · exact .inl ⟨r, hr, rfl, rfl, rfl, .inr ⟨hboth.2, rfl⟩⟩
    · exact .inl ⟨r', hr, rfl, rfl, rfl, .inl rfl⟩

/-- A room that is written, and messages that are no user's. -/
theorem sound_setRoom (hd : d.Sound) (hroom : (d.rooms room).isSome)
    (hnodup : ((d.messages ++ new).map fun m => m.id).Nodup)
    (hnew : ∀ m ∈ new, m.roomId = room ∧ m.kind = .system ∧ m.threadRootId = none ∧
      m.threadReplyCount = 0) :
    AttachmentTables.Sound { d.setRoom room numbers with messages := d.messages ++ new } := by
  have hthere : ∀ {id : Ulid}, (d.rooms id).isSome →
      ((d.setRoom room numbers).rooms id).isSome := by
    intro id hid
    show (update d.rooms room (some numbers) id).isSome
    by_cases heq : id = room
    · rw [heq, update_self]
      rfl
    · rwa [update_of_ne heq]
  -- a log line is nobody's reply
  have hcount : ∀ id, new.countP (ChatMessage.liveReply id) = 0 := by
    intro id
    refine countP_eq_zero.mpr fun m hm hreply => ?_
    have hroot := of_decide_eq_true (and_eq_true_iff.mp hreply).1
    cases hroot.symm.trans (hnew m hm).2.2.1
  refine ⟨hnodup, hd.attachments, fun m hm => ?_, fun m hm => ?_, fun m hm => ?_, hd.sent,
    fun r hr id hid => ?_, fun m hm => ?_, fun r hr => hthere (hd.ofRoom r hr), fun e he => ?_⟩
  · rcases mem_append.mp hm with hm | hm
    · intro root hroot
      obtain ⟨x, hx, hsame⟩ := hd.roots m hm root hroot
      exact ⟨x, mem_append_left _ hx, hsame⟩
    · intro root hroot
      cases (hnew m hm).2.2.1.symm.trans hroot
  · show m.threadReplyCount = (((d.messages ++ new).countP _ : ℕ) : ℤ)
    rw [countP_append, hcount, add_zero]
    rcases mem_append.mp hm with hm | hm
    · exact hd.replies m hm
    · rw [(hnew m hm).2.2.2, eq_comm]
      refine congrArg Nat.cast (countP_eq_zero.mpr fun y hy hreply => ?_)
      -- the root of a reply was there before
      have hroot := of_decide_eq_true (and_eq_true_iff.mp hreply).1
      obtain ⟨x, hx, hid, -⟩ := hd.roots y hy m.id hroot
      rw [map_append] at hnodup
      exact (nodup_append.mp hnodup).2.2 _ (List.mem_map.mpr ⟨x, hx, rfl⟩) _
        (List.mem_map.mpr ⟨m, hm, rfl⟩) hid
  · obtain ⟨hmem, huser, hdeleted⟩ := hm
    rcases mem_append.mp hmem with hmem | hmem
    · exact hd.content m ⟨hmem, huser, hdeleted⟩
    · cases (hnew m hmem).2.1.symm.trans huser
  · obtain ⟨x, hx, hsame⟩ := hd.ofMessage r hr id hid
    exact ⟨x, mem_append_left _ hx, hsame⟩
  · rcases mem_append.mp hm with hm | hm
    · exact hthere (hd.inRoom m hm)
    · exact hthere ((hnew m hm).1 ▸ hroom)
  · show update d.rooms room (some numbers) e.objectKey.roomId = none
    have hgone := hd.gone e he
    rw [update_of_ne, hgone]
    rintro rfl
    rw [hgone] at hroom
    cases hroom

/-! ## Ids -/

theorem ids_effect (t : AttachmentTask) :
    (s.effect t).ids = s.ids ∨ (s.effect t).ids = s.ids + 1 := by
  cases t with
  | allocateSeq =>
    simp only [effect]
    split
    · exact .inr rfl
    · exact .inl rfl
  | createAttachment => exact .inr rfl
  | insertAttachment =>
    simp only [effect]
    split <;> exact .inl rfl
  | deleteObjects _ todo | deleteDueObjects _ todo => cases todo <;> exact .inl rfl
  | _ => exact .inl rfl

theorem tasks_effect (t : AttachmentTask) : (s.effect t).tasks = s.tasks := by
  cases t with
  | allocateSeq | insertAttachment =>
    simp only [effect]
    split <;> rfl
  | deleteObjects _ todo | deleteDueObjects _ todo => cases todo <;> rfl
  | _ => rfl

theorem le_ids_effect (t : AttachmentTask) : s.ids ≤ (s.effect t).ids := by
  rcases ids_effect (s := s) t with h | h
  · exact h.ge
  · exact h ▸ Nat.le_succ _

theorem id_newMessage : (s.newMessage actor room input root numbers).id = s.ids := by
  cases root <;> rfl

/-- The id of a message that a call has by its turn it had, or it is drawn. -/
theorem mem_newMessage_turn (h : id ∈ (s.turn t).newMessage) :
    id ∈ t.newMessage ∨ id = s.ids ∧ (s.effect t).ids = s.ids + 1 := by
  cases t with
  | allocateSeq _ room input root =>
    simp only [turn, effect] at h ⊢
    cases hnumbers : s.sendNumbers room input root with
    | none =>
      rw [hnumbers] at h
      cases h
    | some =>
      rw [hnumbers] at h
      exact .inr ⟨(mem_singleton.mp h).trans id_newMessage, rfl⟩
  | attachToMessage => exact .inl h
  | attaching _ _ _ todo =>
    cases todo with
    | nil =>
      simp only [turn] at h
      split at h
      · exact .inl h
      · cases h
    | cons =>
      simp only [turn] at h
      split at h <;> exact .inl h
  | allocateEdit | allocateChange =>
    simp only [turn] at h
    split at h <;> cases h
  | allocateDelete =>
    simp only [turn] at h
    split at h
    · split at h <;> cases h
    · cases h
  | marking _ _ todo =>
    cases todo with
    | nil => cases h
    | cons =>
      simp only [turn] at h
      split at h <;> cases h
  | deleteObjects _ todo | deleteDueObjects _ todo =>
    cases todo <;> cases h
  | _ =>
    simp only [turn] at h
    repeat' split at h
    all_goals cases h

/-- The id of an attachment that a call has by its turn it had, or it is drawn. -/
theorem mem_newAttachment_turn (h : id ∈ (s.turn t).newAttachment) :
    id ∈ t.newAttachment ∨ id = s.ids ∧ (s.effect t).ids = s.ids + 1 := by
  cases t with
  | createAttachment => exact .inr ⟨mem_singleton.mp h, rfl⟩
  | insertAttachment =>
    simp only [turn] at h
    split at h
    · exact .inl h
    · cases h
  | attaching _ _ _ todo =>
    cases todo <;> simp only [turn] at h <;> split at h <;> cases h
  | marking _ _ todo =>
    cases todo with
    | nil => cases h
    | cons =>
      simp only [turn] at h
      split at h <;> cases h
  | deleteObjects _ todo | deleteDueObjects _ todo =>
    cases todo <;> cases h
  | _ =>
    simp only [turn] at h
    repeat' split at h
    all_goals cases h

/-- A row that is about to be written has an id that was just drawn. -/
theorem eq_of_turn_insertAttachment (h : s.turn t = .insertAttachment row) : row.id = s.ids := by
  have hid : row.id ∈ (s.turn t).newAttachment := by
    rw [h]
    exact .head _
  rcases mem_newAttachment_turn hid with hmem | ⟨heq, -⟩
  · -- nobody writes a row twice
    cases t with
    | insertAttachment =>
      simp only [turn] at h
      split at h <;> exact absurd h (by simp [refuse])
    | presignPut => exact absurd h (by simp [turn])
    | _ => cases hmem
  · exact heq

/-- The messages that there are after a step were there, or are written by it. -/
theorem mem_messages_effect {m : ChatMessage} (h : m ∈ (s.effect t).tables.messages) :
    m.id ∈ s.tables.messages.map (fun m => m.id) ∨ ∃ w, t = .commit w ∧ m ∈ w.newMessages := by
  have hold : ∀ {d : AttachmentTables}, (s.effect t).tables = d → d.messages = s.tables.messages →
      m.id ∈ s.tables.messages.map fun m => m.id := fun hd hsame =>
    List.mem_map.mpr ⟨m, hsame ▸ hd ▸ h, rfl⟩
  rcases tables_effect (s := s) t with heq | ⟨row, -, -, heq⟩ | ⟨id, -, heq⟩ | ⟨w, rfl, heq⟩
  · exact .inl (hold heq rfl)
  · exact .inl (hold heq rfl)
  · exact .inl (hold heq rfl)
  · rw [heq] at h
    rcases exists_of_mem_messages_perform h with ⟨x, hx, -, rfl⟩ | hnew
    · exact .inl (List.mem_map.mpr ⟨x, hx, onMessage_same.1.symm⟩)
    · exact .inr ⟨w, rfl, hnew⟩

/-- The attachments that there are after a step were there, or are written by it. -/
theorem mem_attachments_effect {r : AttachmentRow} (h : r ∈ (s.effect t).tables.attachments) :
    r.id ∈ s.tables.attachments.map AttachmentRow.id ∨ t = .insertAttachment r := by
  rcases tables_effect (s := s) t with heq | ⟨row, rfl, -, heq⟩ | ⟨id, -, heq⟩ | ⟨w, -, heq⟩
  · exact .inl (List.mem_map_of_mem (heq ▸ h))
  · rw [heq] at h
    rcases mem_append.mp h with h | h
    · exact .inl (List.mem_map_of_mem h)
    · exact .inr (by rw [mem_singleton.mp h])
  · rw [heq] at h
    have hid := List.mem_map_of_mem (f := AttachmentRow.id) h
    rw [map_id_markUploaded] at hid
    exact .inl hid
  · rw [heq] at h
    obtain ⟨r₀, hr₀, -, rfl⟩ := exists_of_mem_attachments_perform h
    exact .inl (List.mem_map.mpr ⟨r₀, hr₀, onAttachment_same.1.symm⟩)

/-- **A step of a call draws ids that are new.** -/
theorem Drawn.step (hs : s.Drawn) (hi : s.tasks[i]? = some t) :
    ((s.effect t).goes i (s.turn t)).Drawn := by
  have ht : t ∈ s.tasks := mem_of_getElem? hi
  have hle : s.ids ≤ (s.effect t).ids := le_ids_effect t
  have hcases : ∀ {j : ℕ} {u : AttachmentTask},
      ((s.effect t).goes i (s.turn t)).tasks[j]? = some u →
        u = s.turn t ∨ (j ≠ i ∧ s.tasks[j]? = some u) := by
    intro j u hu
    have hsame : (s.effect t).tasks = s.tasks := tasks_effect t
    change ((s.effect t).tasks.set i (s.turn t))[j]? = some u at hu
    rw [hsame] at hu
    exact (getElem?_set_cases hu).imp And.right id
  refine ⟨fun m hm => ?_, fun r hr => ?_, fun u hu id hid => ?_, fun u hu id hid => ?_,
    fun row hrow hmem => ?_, ?_, ?_⟩
  · rcases mem_messages_effect hm with hold | ⟨w, rfl, hnew⟩
    · obtain ⟨m₀, hm₀, heq⟩ := List.mem_map.mp hold
      exact heq ▸ (hs.messages m₀ hm₀).trans_le hle
    · exact ((hs.newMessage _ ht _ (List.mem_map_of_mem hnew)).1).trans_le hle
  · rcases mem_attachments_effect hr with hold | rfl
    · obtain ⟨r₀, hr₀, heq⟩ := List.mem_map.mp hold
      exact heq ▸ (hs.attachments r₀ hr₀).trans_le hle
    · exact (hs.newAttachment _ ht _ (.head _)).trans_le hle
  · obtain ⟨j, hj⟩ := getElem?_of_mem hu
    rcases hcases hj with rfl | ⟨hne, hj'⟩
    · rcases mem_newMessage_turn hid with hmem | ⟨rfl, hdrawn⟩
      · refine ⟨((hs.newMessage t ht id hmem).1).trans_le hle, fun hthere => ?_⟩
        obtain ⟨m, hm, rfl⟩ := List.mem_map.mp hthere
        rcases mem_messages_effect hm with hold | ⟨w, rfl, -⟩
        · exact (hs.newMessage t ht _ hmem).2 hold
        · cases hid
      · have hlt : s.ids < (s.effect t).ids := hdrawn ▸ Nat.lt_succ_self _
        refine ⟨hlt, fun hthere => ?_⟩
        obtain ⟨m, hm, heq⟩ := List.mem_map.mp hthere
        rcases mem_messages_effect hm with hold | ⟨w, rfl, -⟩
        · obtain ⟨m₀, hm₀, heq₀⟩ := List.mem_map.mp hold
          have hlt := hs.messages m₀ hm₀
          rw [heq₀, heq] at hlt
          exact absurd hlt (lt_irrefl _)
        · cases hid
    · obtain ⟨hlt, hnot⟩ := hs.newMessage u (mem_of_getElem? hj') id hid
      refine ⟨hlt.trans_le hle, fun hthere => ?_⟩
      obtain ⟨m, hm, rfl⟩ := List.mem_map.mp hthere
      rcases mem_messages_effect hm with hold | ⟨w, rfl, hnew⟩
      · exact hnot hold
      · exact hne (hs.messagesApart j i u _ hj' hi _ hid (List.mem_map_of_mem hnew))
  · obtain ⟨j, hj⟩ := getElem?_of_mem hu
    rcases hcases hj with rfl | ⟨-, hj'⟩
    · rcases mem_newAttachment_turn hid with hmem | ⟨rfl, hdrawn⟩
      · exact (hs.newAttachment t ht id hmem).trans_le hle
      · have hlt : s.ids < (s.effect t).ids := hdrawn ▸ Nat.lt_succ_self _
        exact hlt
    · exact (hs.newAttachment u (mem_of_getElem? hj') id hid).trans_le hle
  · obtain ⟨r, hr, heq⟩ := List.mem_map.mp hmem
    obtain ⟨j, hj⟩ := getElem?_of_mem hrow
    rcases hcases hj with hturn | ⟨hne, hj'⟩
    · have hid := eq_of_turn_insertAttachment hturn.symm
      rcases mem_attachments_effect hr with hold | rfl
      · obtain ⟨r₀, hr₀, heq₀⟩ := List.mem_map.mp hold
        have hlt := hs.attachments r₀ hr₀
        rw [heq₀, heq, hid] at hlt
        exact absurd hlt (lt_irrefl _)
      · simp only [turn] at hturn
        split at hturn <;> exact absurd hturn (by simp [refuse])
    · rcases mem_attachments_effect hr with hold | rfl
      · exact hs.inserted row (mem_of_getElem? hj') (heq ▸ hold)
      · exact hne (hs.attachmentsApart j i _ _ hj' hi row.id (.head _)
          (by rw [← heq]; exact .head _))
  · show HeldRows.Apart _ ((s.effect t).tasks.set i (s.turn t))
    rw [tasks_effect]
    refine hs.messagesApart.set hi fun id hid => ?_
    refine (mem_newMessage_turn hid).imp_right fun hdrawn u hu hmem => ?_
    have hlt := (hs.newMessage u hu id hmem).1
    rw [hdrawn.1] at hlt
    exact absurd hlt (lt_irrefl _)
  · show HeldRows.Apart _ ((s.effect t).tasks.set i (s.turn t))
    rw [tasks_effect]
    refine hs.attachmentsApart.set hi fun id hid => ?_
    refine (mem_newAttachment_turn hid).imp_right fun hdrawn u hu hmem => ?_
    have hlt := hs.newAttachment u hu id hmem
    rw [hdrawn.1] at hlt
    exact absurd hlt (lt_irrefl _)

/-! ## Every state is sound -/

/-- **A step of a call spares what others have locked.** -/
theorem Sound.spares (hs : s.Sound) (hi : s.tasks[i]? = some t)
    (hfree : ∀ l ∈ s.tables.asks t, s.FreeLock l) {j : ℕ} {u : AttachmentTask} (hne : j ≠ i)
    (hj : s.tasks[j]? = some u) : SparesRows u.held s.tables (s.effect t).tables := by
  have ht := mem_of_getElem? hi
  have hu := mem_of_getElem? hj
  rcases tables_effect (s := s) t with heq | ⟨row, rfl, -, heq⟩ | ⟨id, rfl, heq⟩ | ⟨w, rfl, heq⟩
  · exact heq ▸ SparesRows.refl _ _
  · rw [heq]
    exact spares_insert (hs.fits _ ht).1 fun hl => hfree _ (.head _) u hu hl
  · rw [heq]
    refine spares_markUploaded fun r hr hid hpending hl => hfree (.attachment id) ?_ u hu hl
    have hfind : s.tables.getAttachment id = some r := KeyedRows.find?_key hs.tables.attachments hr hid
    simp only [AttachmentTables.asks, hfind]
    rw [← hid]
    exact List.mem_map.mpr ⟨r, mem_toList.mpr
      (mem_filter_iff.mpr ⟨rfl, decide_eq_true hpending⟩), rfl⟩
  · rw [heq]
    refine spares_perform hs.tables (hs.fits _ ht) (fun m hm => ?_) (fun l hl => ?_)
      fun id hl => exists_of_held hs.tables (hs.fits u hu) hl
    · exact (hs.drawn.newMessage _ ht _ (List.mem_map_of_mem hm)).2
    · exact hs.apart.notMem hj hi hne hl

theorem Sound.tables_step (hs : s.Sound) (hi : s.tasks[i]? = some t) :
    (s.effect t).tables.Sound := by
  have ht := mem_of_getElem? hi
  rcases tables_effect (s := s) t with heq | ⟨row, rfl, hroom, heq⟩ | ⟨id, rfl, heq⟩ | ⟨w, rfl, heq⟩
  · exact heq ▸ hs.tables
  · rw [heq]
    exact sound_insert hs.tables (hs.fits _ ht) hroom (hs.drawn.inserted row ht)
  · rw [heq]
    exact sound_markUploaded hs.tables id
  · rw [heq]
    exact sound_perform hs.tables (hs.fits _ ht) fun m hm =>
      (hs.drawn.newMessage _ ht _ (List.mem_map_of_mem hm)).2

/-- A call that ends, or begins, has nothing. -/
theorem Drawn.of_tasks {tasks : List AttachmentTask} (hs : s.Drawn)
    (hmessage : HeldRows.Apart AttachmentTask.newMessage tasks)
    (hattachment : HeldRows.Apart AttachmentTask.newAttachment tasks)
    (htasks : ∀ t ∈ tasks, t ∈ s.tasks ∨ t.newMessage = [] ∧ t.newAttachment = []) :
    Drawn { s with tasks := tasks } where
  messages := hs.messages
  attachments := hs.attachments
  newMessage := by
    intro t ht id hid
    rcases htasks t ht with ht | ⟨hnil, -⟩
    · exact hs.newMessage t ht id hid
    · rw [hnil] at hid
      cases hid
  newAttachment := by
    intro t ht id hid
    rcases htasks t ht with ht | ⟨-, hnil⟩
    · exact hs.newAttachment t ht id hid
    · rw [hnil] at hid
      exact nomatch hid
  inserted := by
    intro row hrow
    rcases htasks _ hrow with ht | ⟨-, hnil⟩
    · exact hs.inserted row ht
    · exact absurd hnil (by simp [AttachmentTask.newAttachment])
  messagesApart := hmessage
  attachmentsApart := hattachment

theorem new_begins (c : AttachmentCall) : c.begins.newMessage = [] ∧ c.begins.newAttachment = [] := by
  cases c with
  | sendMessage | editMessage =>
    simp only [AttachmentCall.begins]
    split <;> exact ⟨rfl, rfl⟩
  | _ => exact ⟨rfl, rfl⟩

/-- **Every step keeps the service sound.** -/
theorem Sound.act (hs : s.Sound) (hact : s.act a = some s') : s'.Sound := by
  cases step_of_act hact with
  | @step i t hi hfree hdone =>
    have htasks : ((s.effect t).goes i (s.turn t)).tasks = s.tasks.set i (s.turn t) := by
      show (s.effect t).tasks.set _ _ = _
      rw [tasks_effect]
    refine ⟨hs.tables_step hi, ?_, hs.drawn.step hi, fun u hu => ?_⟩
    · rw [htasks]
      exact hs.apart.set hi fun l hl => mem_held_turn hfree hl
    · rw [htasks] at hu
      obtain ⟨j, hj⟩ := getElem?_of_mem hu
      rcases getElem?_set_cases hj with ⟨-, rfl⟩ | ⟨hne, hj'⟩
      · exact fits_turn (hs.fits t (mem_of_getElem? hi))
      · exact (hs.fits u (mem_of_getElem? hj')).spared (hs.spares hi hfree hne hj')
  | @fail i t hi hdone =>
    refine ⟨hs.tables, hs.apart.set hi fun l hl => absurd hl not_mem_nil,
      hs.drawn.of_tasks (hs.drawn.messagesApart.set hi fun l hl => absurd hl not_mem_nil)
        (hs.drawn.attachmentsApart.set hi fun l hl => absurd hl not_mem_nil) fun u hu => ?_,
      fun u hu => ?_⟩
    · rcases mem_or_eq_of_mem_set hu with hu | rfl
      · exact .inl hu
      · exact .inr ⟨rfl, rfl⟩
    · rcases mem_or_eq_of_mem_set hu with hu | rfl
      · exact hs.fits u hu
      · exact trivial
  | start c =>
    obtain ⟨hmessage, hattachment⟩ := new_begins c
    refine ⟨hs.tables, hs.apart.concat (held_begins c),
      hs.drawn.of_tasks (hs.drawn.messagesApart.concat hmessage)
        (hs.drawn.attachmentsApart.concat hattachment) fun u hu => ?_, fun u hu => ?_⟩
    · rcases mem_append.mp hu with hu | hu
      · exact .inl hu
      · obtain rfl := mem_singleton.mp hu
        exact .inr ⟨hmessage, hattachment⟩
    · rcases mem_append.mp hu with hu | hu
      · exact hs.fits u hu
      · obtain rfl := mem_singleton.mp hu
        exact fits_begins (s := s) c
  | tick => exact ⟨hs.tables, hs.apart, ⟨hs.drawn.1, hs.drawn.2, hs.drawn.3, hs.drawn.4, hs.drawn.5,
      hs.drawn.6, hs.drawn.7⟩, hs.fits⟩
  | put => exact ⟨hs.tables, hs.apart, ⟨hs.drawn.1, hs.drawn.2, hs.drawn.3, hs.drawn.4,
      hs.drawn.5, hs.drawn.6, hs.drawn.7⟩, hs.fits⟩
  | @log room subject type r hfree hr =>
    have hroom : (s.tables.rooms room).isSome := isSome_of_mem hr
    have hnew : s.ids ∉ s.tables.messages.map fun m => m.id := by
      intro hid
      obtain ⟨m, hm, heq⟩ := List.mem_map.mp hid
      exact absurd (hs.drawn.messages m hm) (by rw [heq]; exact lt_irrefl _)
    refine ⟨sound_setRoom hs.tables hroom ?_ ?_, hs.apart, ?_, fun u hu => ?_⟩
    · rw [map_append]
      refine nodup_append.mpr ⟨hs.tables.messages, nodup_singleton _, ?_⟩
      rintro id hid id' hid' rfl
      obtain rfl : id = s.ids := mem_singleton.mp hid'
      exact hnew hid
    · intro m hm
      obtain rfl := mem_singleton.mp hm
      exact ⟨rfl, rfl, rfl, rfl⟩
    · refine ⟨fun m hm => ?_, fun r hr => (hs.drawn.attachments r hr).trans (Nat.lt_succ_self _),
        fun u hu id hid => ⟨((hs.drawn.newMessage u hu id hid).1).trans (Nat.lt_succ_self _),
          fun hmem => ?_⟩,
        fun u hu id hid => (hs.drawn.newAttachment u hu id hid).trans (Nat.lt_succ_self _),
        hs.drawn.inserted, hs.drawn.messagesApart, hs.drawn.attachmentsApart⟩
      · rcases mem_append.mp hm with hm | hm
        · exact (hs.drawn.messages m hm).trans (Nat.lt_succ_self _)
        · obtain rfl := mem_singleton.mp hm
          exact Nat.lt_succ_self _
      · obtain ⟨m, hm, rfl⟩ := List.mem_map.mp hmem
        rcases mem_append.mp hm with hm | hm
        · exact (hs.drawn.newMessage u hu _ hid).2 (List.mem_map.mpr ⟨m, hm, rfl⟩)
        · obtain rfl := mem_singleton.mp hm
          exact absurd (hs.drawn.newMessage u hu _ hid).1 (lt_irrefl _)
    · refine (hs.fits u hu).spared (spares_setRoom (fun hl => hfree u hu hl) fun m hm => ?_)
      obtain rfl := mem_singleton.mp hm
      rfl
  | @archive room archived r hfree hr =>
    have hroom : (s.tables.rooms room).isSome := isSome_of_mem hr
    have hsame : s.tables.messages ++ [] = s.tables.messages := append_nil _
    have htables : AttachmentTables.Sound
        { s.tables.setRoom room { r with archived := archived } with
          messages := s.tables.messages ++ [] } :=
      sound_setRoom hs.tables hroom (by rw [hsame]; exact hs.tables.messages) fun m hm =>
        nomatch hm
    rw [hsame] at htables
    refine ⟨htables, hs.apart, ⟨hs.drawn.1, hs.drawn.2, hs.drawn.3, hs.drawn.4, hs.drawn.5,
      hs.drawn.6, hs.drawn.7⟩, fun u hu => ?_⟩
    have hspares : SparesRows u.held s.tables
        { s.tables.setRoom room { r with archived := archived } with
          messages := s.tables.messages ++ [] } :=
      spares_setRoom (fun hl => hfree u hu hl) fun m hm => nomatch hm
    rw [hsame] at hspares
    exact (hs.fits u hu).spared hspares

theorem sound_of_init (h : system.init s) : s.Sound := by
  obtain ⟨hmessages, hattachments, hdeletions, -, -, htasks⟩ := h
  refine ⟨?_, ?_, ?_, fun t ht => ?_⟩
  · refine ⟨?_, ?_, ?_, ?_, fun m hm => ?_, ?_, ?_, ?_, ?_, ?_⟩
    · rw [hmessages]
      exact nodup_nil
    · rw [hattachments]
      exact nodup_nil
    · rw [hmessages]
      exact nofun
    · rw [hmessages]
      exact nofun
    · obtain ⟨hmem, -⟩ := hm
      rw [hmessages] at hmem
      cases hmem
    · rw [hattachments]
      exact nofun
    · rw [hattachments]
      exact nofun
    · rw [hmessages]
      exact nofun
    · rw [hattachments]
      exact nofun
    · rw [hdeletions]
      exact nofun
  · rw [htasks]
    exact apart_nil
  · refine ⟨?_, ?_, ?_, ?_, ?_, ?_, ?_⟩
    · rw [hmessages]
      exact fun m hm => nomatch hm
    · rw [hattachments]
      exact fun r hr => nomatch hr
    · rw [htasks]
      exact fun t ht => nomatch ht
    · rw [htasks]
      exact fun t ht => nomatch ht
    · rw [htasks]
      exact fun row hrow => nomatch hrow
    · rw [htasks]
      exact apart_nil
    · rw [htasks]
      exact apart_nil
  · rw [htasks] at ht
    exact nomatch ht

/-- **Every state is sound.** -/
theorem sound_of_reachable {P : AttachmentService → AttachmentAction → Prop}
    (hs : system.ReachableBy P s) : s.Sound :=
  hs.invariant (fun _ => sound_of_init) fun _ _ _ h _ hact => h.act hact

end AttachmentService

end Hibari
