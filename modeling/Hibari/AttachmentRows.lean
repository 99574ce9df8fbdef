import Hibari.Attachments
import Hibari.KeyedRows

/-!
# What the rows of attachments and messages keep

Calls hold the rows that they go by (`AttachmentTask.Fits`), and what others write leaves the rows
that a call holds as they are (`SparesRows`). So what is written fits the rows when it is written, and
the tables stay sound (`Sound`): a message that is there says something or has an attachment, a root
counts its replies, and an attachment is of a message of its room, sent by who uploaded it – or of
none, as long as it was not sent.
-/

namespace Hibari

open List Option Function

namespace AttachmentTables

variable {d : AttachmentTables} {m : ChatMessage} {r : AttachmentRow} {room id : Ulid}

theorem mem_of_getMessage (h : d.getMessage room id = some m) :
    m ∈ d.messages ∧ m.roomId = room ∧ m.id = id :=
  ⟨mem_of_find?_eq_some h, by simpa using find?_some h⟩

theorem mem_of_getAttachment (h : d.getAttachment id = some r) : r ∈ d.attachments ∧ r.id = id :=
  ⟨mem_of_find?_eq_some h, by simpa using find?_some h⟩

theorem exists_of_any_getAttachment {p : AttachmentRow → Bool}
    (h : (d.getAttachment id).any p = true) : ∃ r ∈ d.attachments, r.id = id ∧ p r = true := by
  obtain ⟨r, hr, hp⟩ := (Option.any_eq_true _ _).mp h
  obtain ⟨hmem, hid⟩ := mem_of_getAttachment hr
  exact ⟨r, hmem, hid, hp⟩

theorem mem_messageLock (h : d.getMessage room id = some m) :
    .message m.id ∈ d.messageLock room id := by
  rw [messageLock, h]
  exact .head _

end AttachmentTables

open AttachmentTables

namespace AttachmentService

variable {s : AttachmentService} {t : AttachmentTask} {l : AttachmentLock}
  {numbers : RoomRecord} {input : SendMessageInput} {root : Option ChatMessage} {now : ℕ}

/-! ## Locks -/

/-- A room that gave out numbers was locked. -/
theorem mem_allocateLock {room : Ulid} {f : RoomRecord → Option RoomRecord}
    (h : (s.tables.rooms room).bind f = some numbers) (hf : ∀ r, r.archived → f r = none) :
    .room room ∈ s.tables.allocateLock room := by
  obtain ⟨r, hr, hnumbers⟩ := bind_eq_some_iff.mp h
  have harchived : r.archived = false := by
    cases hr' : r.archived with
    | false => rfl
    | true => cases hnumbers.symm.trans (hf r hr')
  rw [AttachmentTables.allocateLock, hr, any_some, harchived]
  exact .head _

theorem mem_allocateLock_of_sendNumbers {room : Ulid}
    (h : s.sendNumbers room input root = some numbers) :
    .room room ∈ s.tables.allocateLock room := by
  refine mem_allocateLock h fun r hr => ?_
  cases root with
  | _ => exact if_pos hr

theorem mem_allocateLock_of_changeNumbers {room : Ulid} {n : ℕ}
    (h : s.changeNumbers room n = some numbers) : .room room ∈ s.tables.allocateLock room :=
  mem_allocateLock h fun _ hr => if_pos hr

theorem mem_dueAttachments {r : AttachmentRow} (h : r ∈ s.dueAttachments now) :
    r ∈ s.tables.attachments ∧ r.due now ∧ s.FreeLock (.attachment r.id) := by
  obtain ⟨hr, hboth⟩ := mem_filter.mp ((mem_insertionSort _).mp (mem_of_mem_take h))
  obtain ⟨hdue, hfree⟩ := Bool.and_eq_true_iff.mp hboth
  exact ⟨hr, hdue, of_decide_eq_true hfree⟩

theorem mem_dueStorageDeletions {e : StorageDeletion}
    (h : e ∈ s.dueStorageDeletions now) : e ∈ s.tables.storageDeletions ∧ e.notBefore ≤ now ∧
      s.FreeLock (.storageDeletion e.objectKey) := by
  obtain ⟨he, hboth⟩ := mem_filter.mp ((mem_insertionSort _).mp (mem_of_mem_take h))
  obtain ⟨hdue, hfree⟩ := Bool.and_eq_true_iff.mp hboth
  exact ⟨he, of_decide_eq_true hdue, of_decide_eq_true hfree⟩

theorem held_begins (c : AttachmentCall) : c.begins.held = [] := by
  cases c with
  | sendMessage | editMessage =>
    simp only [AttachmentCall.begins]
    split <;> rfl
  | _ => rfl

/-- The row of a message that is sent is that of its sender, in its room. -/
theorem mem_sendLocks_newMessage {actor room : Ulid}
    (h : l ∈ (s.newMessage actor room input root numbers).sendLocks) :
    l ∈ (AttachmentTask.allocateSeq actor room input root).held ∨ l = .room room := by
  cases root with
  | _ =>
    rcases mem_append.mp h with h | h
    · exact .inl h
    · exact .inr (mem_singleton.mp h)

/-- **A lock that a call has by its turn** it had, or it was free. -/
theorem mem_held_turn (hfree : ∀ l ∈ s.tables.asks t, s.FreeLock l) (h : l ∈ (s.turn t).held) :
    l ∈ t.held ∨ s.FreeLock l := by
  cases t with
  | sendMessage =>
    have hlock := hfree _ (.head _)
    simp only [turn] at h
    split at h
    · cases h
    · split at h
      · exact .inr (mem_singleton.mp h ▸ hlock)
      · exact .inr (mem_singleton.mp h ▸ hlock)
  | sendThreadReply =>
    simp only [turn] at h
    split at h
    · next m hm =>
      split at h
      · rcases mem_cons.mp h with rfl | h
        · exact .inl (.head _)
        · exact .inr (mem_singleton.mp h ▸ hfree _ (mem_messageLock hm))
      · cases h
    · cases h
  | allocateSeq =>
    simp only [turn] at h
    split at h
    · next numbers hnumbers =>
      rcases mem_sendLocks_newMessage h with h | rfl
      · exact .inl h
      · exact .inr (hfree _ (mem_allocateLock_of_sendNumbers hnumbers))
    · cases h
  | attachToMessage => exact .inl (by simpa [turn, AttachmentTask.held] using h)
  | attaching _ _ _ todo =>
    cases todo with
    | nil =>
      simp only [turn] at h
      split at h
      · exact .inl h
      · cases h
    | cons =>
      simp only [turn] at h
      split at h
      · simp only [AttachmentTask.held, map_append, mem_append] at h
        rcases h with h | h | h
        · exact .inl (mem_append_left _ h)
        · exact .inl (mem_append_right _ h)
        · exact .inr (mem_singleton.mp h ▸ hfree _ (.head _))
      · exact .inl h
  | editMessage =>
    exact .inr (mem_singleton.mp h ▸ hfree _ (.head _))
  | lockEdited =>
    simp only [turn] at h
    split at h
    · next m hm =>
      obtain ⟨-, rfl, rfl⟩ := mem_of_getMessage hm
      split at h
      · cases h
      · split at h
        · cases h
        · next hsender =>
          split at h
          · cases h
          · split at h
            · cases h
            · rw [not_not] at hsender
              rcases mem_cons.mp h with rfl | h
              · exact .inl (by rw [hsender]; exact .head _)
              · exact .inr (mem_singleton.mp h ▸ hfree _ (mem_messageLock hm))
    · cases h
  | deleteMessage =>
    simp only [turn] at h
    split at h
    · next m hm =>
      split at h
      · cases h
      · split at h
        · cases h
        · exact .inr (mem_singleton.mp h ▸ hfree _ (mem_messageLock hm))
    · cases h
  | lockMessage =>
    simp only [turn] at h
    split at h
    · next m hm =>
      split at h
      · cases h
      · exact .inr (mem_singleton.mp h ▸ hfree _ (mem_messageLock hm))
    · cases h
  | deleteMessageAttachment =>
    simp only [turn] at h
    split at h
    · next hany =>
      obtain ⟨r, hr, hattached⟩ := (Option.any_eq_true _ _).mp hany
      obtain ⟨-, hid⟩ := mem_of_getAttachment hr
      rcases mem_cons.mp h with rfl | h
      · exact .inl (.head _)
      · refine .inr (hfree _ ?_)
        simp only [AttachmentTables.asks, hr]
        rw [mem_singleton.mp h, ← hid]
        exact List.mem_map_of_mem (mem_toList.mpr (mem_filter_iff.mpr ⟨rfl, hattached⟩))
    · exact .inl h
  | countMessageAttachments =>
    simp only [turn] at h
    split at h <;> exact .inl h
  | softDeleteMessage m =>
    simp only [turn] at h
    split at h
    · next hroot =>
      rcases mem_append.mp h with h | h
      · rcases mem_cons.mp h with rfl | h
        · exact .inl (.head _)
        · obtain ⟨root, hmem, rfl⟩ := List.mem_map.mp h
          have hsome : m.threadRootId = some root := by simpa using hmem
          rw [hsome, all_some] at hroot
          obtain ⟨x, hx⟩ := isSome_iff_exists.mp hroot
          refine .inr (hfree _ ?_)
          simp only [AttachmentTables.asks, hsome]
          rw [← (mem_of_getMessage hx).2.2]
          exact mem_flatten.mpr ⟨_, .head _, by
            rw [(mem_of_getMessage hx).2.2]
            have := mem_messageLock hx
            rwa [(mem_of_getMessage hx).2.2] at this⟩
      · exact .inl (.tail _ h)
    · cases h
  | allocateDelete _ attachment =>
    simp only [turn] at h
    split at h
    · next numbers hnumbers =>
      have hroom := hfree _ (mem_allocateLock_of_changeNumbers hnumbers)
      cases attachment with
      | none =>
        rcases mem_append.mp h with h | h
        · exact .inl (mem_append_left _ h)
        · exact .inr (mem_singleton.mp h ▸ hroom)
      | some =>
        rcases mem_append.mp h with h | h
        · rcases mem_append.mp h with h | h
          · exact .inl (mem_append_left _ h)
          · exact .inr (mem_singleton.mp h ▸ hroom)
        · exact .inl (mem_append_right _ h)
    · cases h
  | markMessageAttachmentsDeleted =>
    exact .inl (by simpa [turn, AttachmentTask.held] using h)
  | marking _ _ todo =>
    cases todo with
    | nil => exact .inl h
    | cons =>
      simp only [turn] at h
      split at h
      · simp only [AttachmentTask.held, map_append, mem_append] at h
        rcases h with h | h | h
        · exact .inl (mem_append_left _ (mem_append.mpr h))
        · exact .inl (mem_append_right _ h)
        · exact .inr (mem_singleton.mp h ▸ hfree _ (.head _))
      · exact .inl h
  | completeAttachment =>
    simp only [turn] at h
    split at h
    · repeat' split at h
      all_goals cases h
    · cases h
  | headObject =>
    simp only [turn] at h
    split at h
    · cases h
    · split at h <;> cases h
  | checkAlreadyDeleted | insertAttachment | markAttachmentUploaded =>
    simp only [turn] at h
    split at h <;> cases h
  | rereadAttachment =>
    simp only [turn] at h
    split at h
    · split at h <;> cases h
    · cases h
  | deleteRoom =>
    simp only [turn] at h
    split at h
    · next hroom =>
      refine .inr (hfree _ ?_)
      simp only [AttachmentTables.asks, if_pos hroom]
      exact h
    · cases h
  | enqueueRoomStorageDeletions => exact .inl h
  | cascade =>
    simp only [turn, AttachmentTask.held, AttachmentWrite.held, mem_append] at h
    rcases h with (h | h) | h
    · exact .inl h
    · refine .inr (hfree _ (mem_append_left _ ?_))
      rwa [List.map_map] at h
    · refine .inr (hfree _ (mem_append_right _ ?_))
      rwa [List.map_map] at h
  | lockAttachmentsForCleanup =>
    obtain ⟨r, hr, rfl⟩ := List.mem_map.mp h
    exact .inr (mem_dueAttachments hr).2.2
  | lockDueStorageDeletions =>
    obtain ⟨e, he, rfl⟩ := List.mem_map.mp h
    exact .inr (mem_dueStorageDeletions he).2.2
  | deleteObjects gone todo | deleteDueObjects gone todo =>
    cases todo with
    | nil =>
      refine .inl ?_
      show l ∈ (gone ++ []).map _
      rwa [append_nil]
    | cons r todo =>
      refine .inl ?_
      show l ∈ (gone ++ r :: todo).map _
      rwa [append_cons]
  | createAttachment actor room mimeType sizeBytes | presignPut key | deleteMismatched key
  | cleanupAttachmentBatch | cleanupStorageDeletionBatch | commit | done =>
    cases h
  | _ =>
    simp only [turn] at h
    split at h
    · next numbers hnumbers =>
      simp only [AttachmentTask.held, AttachmentWrite.held, mem_cons] at h
      rcases h with rfl | rfl | rfl | h
      · exact .inl (.head _)
      · exact .inl (.tail _ (.head _))
      · exact .inr (hfree _ (mem_allocateLock_of_changeNumbers hnumbers))
      · cases h
    · cases h

end AttachmentService

/-! ## What calls go by -/

namespace AttachmentTables

variable (d : AttachmentTables)

/-- A message of a user, as it is. -/
def Live (m : ChatMessage) : Prop := m ∈ d.messages ∧ m.kind = .user ∧ m.deleted = false

/-- The root of a reply is there, in the same room, and is no reply. -/
def HasRoot (m : ChatMessage) : Prop :=
  ∀ root ∈ m.threadRootId, ∃ x ∈ d.messages, x.id = root ∧ x.roomId = m.roomId ∧
    x.threadRootId = none

/-- An attachment of a message. -/
def Attached (m : ChatMessage) (id : Ulid) : Prop :=
  ∃ r ∈ d.attachments, r.id = id ∧ r.attachedTo m.id = true

/-- Attachments that a message may take. -/
def Takes (m : ChatMessage) (ids : List Ulid) : Prop :=
  ∀ id ∈ ids, ∃ r ∈ d.attachments, r.id = id ∧ r.attachable m.senderId m.roomId = true

/-- There is something in a message without one of its attachments. -/
def Stays (m : ChatMessage) (attachment : Ulid) : Prop :=
  GoText.blank m.body = false ∨ ∃ r ∈ d.attachments, r.attachedTo m.id = true ∧ r.id ≠ attachment

/-- A message that is about to be written. -/
structure IsNew (m : ChatMessage) (ids : List Ulid) : Prop where
  room : (d.rooms m.roomId).isSome
  root : d.HasRoot m
  user : m.kind = .user ∧ m.deleted = false ∧ m.threadReplyCount = 0
  content : GoText.blank m.body = true → ids ≠ []

end AttachmentTables

/-- A body that may be sent with attachments. -/
def Sendable (input : SendMessageInput) : Prop :=
  GoText.blank input.body = true → input.attachmentIds ≠ []

/-- **What a write goes by** is there when it is written. -/
def AttachmentWrite.Fits (d : AttachmentTables) : AttachmentWrite → Prop
  | sendMessage m _ ids => d.IsNew m ids ∧ d.Takes m ids
  | updateMessageBody m _ body =>
    d.Live m ∧ (d.rooms m.roomId).isSome ∧ GoText.blank body = false
  | softDeleteMessage m _ ids =>
    d.Live m ∧ (d.rooms m.roomId).isSome ∧ ∀ id ∈ ids, d.Attached m id
  | deleteMessageAttachment m _ attachment =>
    d.Live m ∧ (d.rooms m.roomId).isSome ∧ d.Attached m attachment ∧ d.Stays m attachment
  | deleteRoom room messages attachments deletions =>
    (∀ id ∈ messages, id ∈ d.messages.map fun m => m.id) ∧
    (∀ m ∈ d.messages, m.roomId = room → m.id ∈ messages) ∧
    (∀ r ∈ d.attachments, r.roomId = room → r.id ∈ attachments ∧
      r.objectKey ∈ deletions.map StorageDeletion.objectKey) ∧
    ∀ e ∈ deletions, e.objectKey.roomId = room
  | deleteAttachments rows => ∀ r ∈ rows, r ∈ d.attachments ∧ r.status ≠ .attached
  | deleteStorageDeletions rows => ∀ e ∈ rows, e ∈ d.storageDeletions

/-- **What a call goes by** is there as long as it goes by it. -/
def AttachmentTask.Fits (d : AttachmentTables) : AttachmentTask → Prop
  | sendMessage _ _ input | sendThreadReply _ _ _ input => Sendable input
  | allocateSeq _ room input root => Sendable input ∧
    ∀ x ∈ root, x ∈ d.messages ∧ x.roomId = room ∧ x.threadRootId = none
  | attachToMessage m _ ids => d.IsNew m ids
  | attaching m _ ids todo taken => d.IsNew m ids ∧ d.Takes m taken ∧ (taken ++ todo).Sublist ids
  | editMessage _ _ _ body | lockEdited _ _ _ body => GoText.blank body = false
  | allocateEdit m body => d.Live m ∧ GoText.blank body = false
  | deleteMessageAttachment m _ | checkAlreadyDeleted m _ => d.Live m
  | countMessageAttachments m attachment => d.Live m ∧ d.Attached m attachment
  | allocateChange m attachment => d.Live m ∧ d.Attached m attachment ∧ d.Stays m attachment
  | softDeleteMessage m attachment => d.Live m ∧ ∀ id ∈ attachment, d.Attached m id
  | allocateDelete m attachment => d.Live m ∧ ∀ id ∈ attachment, d.Attached m id
  | markMessageAttachmentsDeleted m _ => d.Live m ∧ (d.rooms m.roomId).isSome
  | marking m _ _ marked => d.Live m ∧ (d.rooms m.roomId).isSome ∧ ∀ id ∈ marked, d.Attached m id
  | insertAttachment row => row.status = .pending ∧ row.messageId = none
  | cascade room deletions =>
    (∀ r ∈ d.attachments, r.roomId = room → r.objectKey ∈ deletions.map StorageDeletion.objectKey) ∧
    ∀ e ∈ deletions, e.objectKey.roomId = room
  | deleteObjects gone todo => ∀ r ∈ gone ++ todo, r ∈ d.attachments ∧ r.status ≠ .attached
  | deleteDueObjects gone todo => ∀ e ∈ gone ++ todo, e ∈ d.storageDeletions
  | commit w => w.Fits d
  | _ => True

/-! ## What others write -/

/-- **What is locked stays** as it is. -/
structure SparesRows (locks : List AttachmentLock) (d d' : AttachmentTables) : Prop where
  message : ∀ m ∈ d.messages, .message m.id ∈ locks → m ∈ d'.messages
  attachedTo : ∀ id, .message id ∈ locks → ∀ r, r.attachedTo id = true →
    (r ∈ d'.attachments ↔ r ∈ d.attachments)
  attachment : ∀ r ∈ d.attachments, .attachment r.id ∈ locks → r ∈ d'.attachments
  room : ∀ id, .room id ∈ locks → d'.rooms id = d.rooms id
  inRoom : ∀ m' ∈ d'.messages, .room m'.roomId ∈ locks →
    ∃ m ∈ d.messages, m.id = m'.id ∧ m.roomId = m'.roomId
  roomKey : ∀ r' ∈ d'.attachments, .roomKey r'.roomId ∈ locks →
    ∃ r ∈ d.attachments, r.id = r'.id ∧ r.roomId = r'.roomId
  storageDeletion : ∀ e ∈ d.storageDeletions, .storageDeletion e.objectKey ∈ locks →
    e ∈ d'.storageDeletions

section Spared

variable {d d' : AttachmentTables} {locks : List AttachmentLock} {m : ChatMessage} {ids : List Ulid}
  {id : Ulid} (h : SparesRows locks d d')
include h

variable (hl : .message m.id ∈ locks)
include hl

theorem SparesRows.live (hm : d.Live m) : d'.Live m := ⟨h.message m hm.1 hl, hm.2⟩

omit hl

theorem SparesRows.rooms {room : Ulid} (hl : .room room ∈ locks)
    (hroom : (d.rooms room).isSome) : (d'.rooms room).isSome := by
  rw [h.room room hl]
  exact hroom

include hl

theorem SparesRows.attached (ha : d.Attached m id) : d'.Attached m id := by
  obtain ⟨r, hr, hid, hattached⟩ := ha
  exact ⟨r, (h.attachedTo m.id hl r hattached).mpr hr, hid, hattached⟩

theorem SparesRows.stays (hs : d.Stays m id) : d'.Stays m id := by
  rcases hs with hbody | ⟨r, hr, hattached, hne⟩
  · exact .inl hbody
  · exact .inr ⟨r, (h.attachedTo m.id hl r hattached).mpr hr, hattached, hne⟩

omit hl

theorem SparesRows.takes (hl : ∀ id ∈ ids, .attachment id ∈ locks)
    (ht : d.Takes m ids) : d'.Takes m ids := by
  intro id hid
  obtain ⟨r, hr, rfl, hattachable⟩ := ht id hid
  exact ⟨r, h.attachment r hr (hl _ hid), rfl, hattachable⟩

theorem SparesRows.isNew (hl : ∀ l ∈ m.sendLocks, l ∈ locks)
    (hn : d.IsNew m ids) : d'.IsNew m ids where
  room := h.rooms (hl _ (mem_append_right _ (.head _))) hn.room
  root := by
    intro root hroot
    obtain ⟨x, hx, rfl, hroom, hnone⟩ := hn.root root hroot
    refine ⟨x, h.message x hx (hl _ ?_), rfl, hroom, hnone⟩
    exact mem_append_left _ (mem_cons_of_mem _ (List.mem_map_of_mem (mem_toList.mpr hroot)))
  user := hn.user
  content := hn.content

end Spared

variable {d d' : AttachmentTables} {t : AttachmentTask}

/-- A write still fits after others wrote. -/
theorem AttachmentWrite.Fits.spared {w : AttachmentWrite} (h : w.Fits d)
    (hs : SparesRows w.held d d') : w.Fits d' := by
  cases w with
  | sendMessage =>
    exact ⟨hs.isNew (fun l hl => mem_append_left _ hl) h.1,
      hs.takes (fun id hid => mem_append_right _ (List.mem_map_of_mem hid)) h.2⟩
  | updateMessageBody =>
    obtain ⟨hlive, hroom, hbody⟩ := h
    exact ⟨hs.live (by simp [held]) hlive, hs.rooms (by simp [held]) hroom, hbody⟩
  | softDeleteMessage m numbers ids =>
    obtain ⟨hlive, hroom, hids⟩ := h
    have hlock : .message m.id ∈ held (softDeleteMessage m numbers ids) := by
      simp [held, ChatMessage.deleteLocks]
    exact ⟨hs.live hlock hlive, hs.rooms (by simp [held]) hroom,
      fun id hid => hs.attached hlock (hids id hid)⟩
  | deleteMessageAttachment m numbers attachment =>
    obtain ⟨hlive, hroom, hattached, hstays⟩ := h
    have hlock : .message m.id ∈ held (deleteMessageAttachment m numbers attachment) := by
      simp [held]
    exact ⟨hs.live hlock hlive, hs.rooms (by simp [held]) hroom, hs.attached hlock hattached,
      hs.stays hlock hstays⟩
  | deleteRoom =>
    obtain ⟨hthere, hmessages, hattachments, hkeys⟩ := h
    refine ⟨fun id hid => ?_, fun m' hm' hroom => ?_, fun r' hr' hroom => ?_, hkeys⟩
    · obtain ⟨m, hm, rfl⟩ := List.mem_map.mp (hthere id hid)
      exact List.mem_map.mpr ⟨m, hs.message m hm (by simp [held, hid]), rfl⟩
    · obtain ⟨m, hm, hid, hsame⟩ := hs.inRoom m' hm' (by simp [held, hroom])
      exact hid ▸ hmessages m hm (hsame.trans hroom)
    · obtain ⟨r, hr, hid, hsame⟩ := hs.roomKey r' hr' (by simp [held, hroom])
      have hkey : r'.objectKey = r.objectKey := by
        rw [AttachmentRow.objectKey, AttachmentRow.objectKey, hid, hsame]
      rw [hkey, ← hid]
      exact hattachments r hr (hsame.trans hroom)
  | deleteAttachments =>
    intro r hr
    exact ⟨hs.attachment r (h r hr).1 (List.mem_map.mpr ⟨r, hr, rfl⟩), (h r hr).2⟩
  | deleteStorageDeletions =>
    intro e he
    exact hs.storageDeletion e (h e he) (List.mem_map.mpr ⟨e, he, rfl⟩)

/-- **A call still fits after others wrote.** -/
theorem AttachmentTask.Fits.spared (h : t.Fits d) (hs : SparesRows t.held d d') : t.Fits d' := by
  cases t with
  | allocateSeq =>
    refine ⟨h.1, fun x hx => ?_⟩
    obtain ⟨hmem, hroom, hnone⟩ := h.2 x hx
    refine ⟨hs.message x hmem (.tail _ ?_), hroom, hnone⟩
    exact List.mem_map.mpr ⟨x, mem_toList.mpr hx, rfl⟩
  | attachToMessage => exact hs.isNew (fun l hl => hl) h
  | attaching =>
    obtain ⟨hnew, htakes, hsub⟩ := h
    exact ⟨hs.isNew (fun l hl => mem_append_left _ hl) hnew,
      hs.takes (fun id hid => mem_append_right _ (List.mem_map_of_mem hid)) htakes, hsub⟩
  | allocateEdit => exact ⟨hs.live (by simp [held]) h.1, h.2⟩
  | deleteMessageAttachment | checkAlreadyDeleted =>
    exact hs.live (by simp [held]) h
  | countMessageAttachments =>
    exact ⟨hs.live (by simp [held]) h.1, hs.attached (by simp [held]) h.2⟩
  | allocateChange =>
    obtain ⟨hlive, hattached, hstays⟩ := h
    exact ⟨hs.live (by simp [held]) hlive, hs.attached (by simp [held]) hattached,
      hs.stays (by simp [held]) hstays⟩
  | softDeleteMessage =>
    exact ⟨hs.live (by simp [held]) h.1, fun id hid => hs.attached (by simp [held]) (h.2 id hid)⟩
  | allocateDelete m attachment =>
    have hlock : .message m.id ∈ held (allocateDelete m attachment) := by
      simp [held, ChatMessage.deleteLocks]
    exact ⟨hs.live hlock h.1, fun id hid => hs.attached hlock (h.2 id hid)⟩
  | markMessageAttachmentsDeleted =>
    exact ⟨hs.live (by simp [held, ChatMessage.deleteLocks]) h.1, hs.rooms (by simp [held]) h.2⟩
  | marking m numbers todo marked =>
    obtain ⟨hlive, hroom, hmarked⟩ := h
    have hlock : .message m.id ∈ held (marking m numbers todo marked) := by
      simp [held, ChatMessage.deleteLocks]
    exact ⟨hs.live hlock hlive, hs.rooms (by simp [held]) hroom,
      fun id hid => hs.attached hlock (hmarked id hid)⟩
  | cascade =>
    refine ⟨fun r' hr' hroom => ?_, h.2⟩
    obtain ⟨r, hr, hid, hsame⟩ := hs.roomKey r' hr' (by simp [held, hroom])
    have hkey : r'.objectKey = r.objectKey := by
      rw [AttachmentRow.objectKey, AttachmentRow.objectKey, hid, hsame]
    exact hkey ▸ h.1 r hr (hsame.trans hroom)
  | deleteObjects =>
    intro r hr
    exact ⟨hs.attachment r (h r hr).1 (List.mem_map.mpr ⟨r, hr, rfl⟩), (h r hr).2⟩
  | deleteDueObjects =>
    intro e he
    exact hs.storageDeletion e (h e he) (List.mem_map.mpr ⟨e, he, rfl⟩)
  | commit => exact AttachmentWrite.Fits.spared h hs
  | sendMessage actor room input | sendThreadReply actor room root input
  | editMessage actor room message body | lockEdited actor room message body
  | insertAttachment => exact h
  | _ => trivial

/-! ## Tables that are sound -/

/-- A reply that counts. -/
def ChatMessage.liveReply (root : Ulid) (m : ChatMessage) : Bool :=
  decide (m.threadRootId = some root) && !m.deleted

/-- **Tables that are sound.** -/
structure AttachmentTables.Sound (d : AttachmentTables) : Prop where
  messages : (d.messages.map fun m => m.id).Nodup
  attachments : (d.attachments.map AttachmentRow.id).Nodup
  roots : ∀ m ∈ d.messages, d.HasRoot m
  replies : ∀ m ∈ d.messages, m.threadReplyCount = (d.messages.countP (ChatMessage.liveReply m.id) : ℤ)
  content : ∀ m, d.Live m → GoText.blank m.body = false ∨ ∃ r ∈ d.attachments, r.attachedTo m.id = true
  sent : ∀ r ∈ d.attachments, r.messageId.isSome ↔ r.status = .attached ∨ r.status = .deleted
  ofMessage : ∀ r ∈ d.attachments, ∀ id ∈ r.messageId,
    ∃ m ∈ d.messages, m.id = id ∧ m.roomId = r.roomId ∧ m.senderId = r.uploaderId
  /-- The rooms of messages and attachments are there. -/
  inRoom : ∀ m ∈ d.messages, (d.rooms m.roomId).isSome
  ofRoom : ∀ r ∈ d.attachments, (d.rooms r.roomId).isSome
  /-- The rooms of keys that are to be deleted are gone. -/
  gone : ∀ e ∈ d.storageDeletions, d.rooms e.objectKey.roomId = none

namespace AttachmentTables

variable {d : AttachmentTables} {m x : ChatMessage} {r r' : AttachmentRow} {id : Ulid}
  (hd : d.Sound)
include hd

theorem Sound.message_eq (hm : m ∈ d.messages) (hx : x ∈ d.messages)
    (h : m.id = x.id) : m = x := inj_on_of_nodup_map hd.messages hm hx h

theorem Sound.attachment_eq (hr : r ∈ d.attachments) (hr' : r' ∈ d.attachments)
    (h : r.id = r'.id) : r = r' := inj_on_of_nodup_map hd.attachments hr hr' h

theorem Sound.attached_iff (ha : d.Attached m id) (hr : r ∈ d.attachments)
    (hid : r.id = id) : r.attachedTo m.id = true := by
  obtain ⟨r', hr', hid', hattached⟩ := ha
  rwa [hd.attachment_eq hr hr' (hid.trans hid'.symm)]

/-- What may be attached is not attached. -/
theorem Sound.not_attachedTo_of_takes {ids : List Ulid} (ht : d.Takes m ids)
    (hr : r ∈ d.attachments) (hid : r.id ∈ ids) (message : Ulid) : r.attachedTo message = false := by
  obtain ⟨r', hr', hid', hattachable⟩ := ht _ hid
  obtain rfl := hd.attachment_eq hr' hr hid'
  obtain ⟨-, -, huploaded⟩ := of_decide_eq_true hattachable
  refine decide_eq_false fun h => ?_
  cases huploaded.symm.trans h.2

omit hd

theorem attachedTo_inj {message message' : Ulid} (h : r.attachedTo message = true)
    (h' : r.attachedTo message' = true) : message = message' :=
  some.inj ((of_decide_eq_true h).1.symm.trans (of_decide_eq_true h').1)

theorem HasRoot.exists_of_sendLocks (h : d.HasRoot m) (hl : .message id ∈ m.sendLocks) :
    id ∈ d.messages.map fun m => m.id := by
  simp only [ChatMessage.sendLocks, mem_append, mem_cons, List.mem_map, reduceCtorEq,
    false_or, or_false, not_mem_nil, AttachmentLock.message.injEq, exists_eq_right] at hl
  obtain ⟨x, hx, rfl, -⟩ := h id (mem_toList.mp hl)
  exact List.mem_map.mpr ⟨x, hx, rfl⟩

include hd

theorem Sound.exists_of_deleteLocks (hm : d.Live m)
    (hl : .message id ∈ m.deleteLocks) : id ∈ d.messages.map fun m => m.id := by
  rcases mem_cons.mp hl with heq | hl
  · obtain rfl : id = m.id := by simpa using heq
    exact List.mem_map.mpr ⟨m, hm.1, rfl⟩
  · obtain ⟨root, hroot, heq⟩ := List.mem_map.mp hl
    obtain rfl : root = id := by simpa using heq
    obtain ⟨x, hx, rfl, -⟩ := hd.roots m hm.1 root (mem_toList.mp hroot)
    exact List.mem_map.mpr ⟨x, hx, rfl⟩

/-- A message that is locked is there. -/
theorem Sound.exists_of_held {w : AttachmentWrite} (h : w.Fits d)
    (hl : .message id ∈ w.held) : id ∈ d.messages.map fun m => m.id := by
  cases w with
  | sendMessage =>
    exact h.1.root.exists_of_sendLocks ((mem_append.mp hl).resolve_right (by simp))
  | updateMessageBody m =>
    obtain rfl : id = m.id := by simpa [AttachmentWrite.held] using hl
    exact List.mem_map.mpr ⟨m, h.1.1, rfl⟩
  | softDeleteMessage =>
    refine hd.exists_of_deleteLocks h.1 ?_
    simpa [AttachmentWrite.held] using hl
  | deleteMessageAttachment m =>
    obtain rfl : id = m.id := by simpa [AttachmentWrite.held] using hl
    exact List.mem_map.mpr ⟨m, h.1.1, rfl⟩
  | deleteRoom =>
    exact h.1 id (by simpa [AttachmentWrite.held] using hl)
  | deleteAttachments => exact absurd hl (by simp [AttachmentWrite.held])
  | deleteStorageDeletions => exact absurd hl (by simp [AttachmentWrite.held])

end AttachmentTables

/-! ## What a write does to each row -/

namespace AttachmentWrite

variable {x' : ChatMessage}

/-- What becomes of a message. -/
def onMessage : AttachmentWrite → ChatMessage → ChatMessage
  | sendMessage m numbers _, x =>
    if m.threadRootId = some x.id then x.addReply numbers.lastChangeSeq else x
  | updateMessageBody m numbers body, x => if x.id = m.id then x.edit body numbers.lastChangeSeq else x
  | softDeleteMessage m numbers _, x =>
    let x' := if x.id = m.id then x.softDelete (numbers.lastChangeSeq -
      if m.threadRootId.isSome then 1 else 0) else x
    if m.threadRootId = some x.id then x'.removeReply numbers.lastChangeSeq else x'
  | deleteMessageAttachment m numbers _, x => if x.id = m.id then x.touch numbers.lastChangeSeq else x
  | _, x => x

/-- What becomes of an attachment. -/
def onAttachment : AttachmentWrite → AttachmentRow → AttachmentRow
  | sendMessage m _ ids, r => if r.id ∈ ids then r.attach m.id else r
  | softDeleteMessage _ _ ids, r => if r.id ∈ ids then r.delete else r
  | deleteMessageAttachment _ _ attachment, r => if r.id ∈ [attachment] then r.delete else r
  | _, r => r

/-- Whether a message stays in the table. -/
def keepsMessage : AttachmentWrite → ChatMessage → Bool
  | deleteRoom room _ _ _, m => decide (m.roomId ≠ room)
  | _, _ => true

/-- Whether an attachment stays in the table. -/
def keepsAttachment : AttachmentWrite → AttachmentRow → Bool
  | deleteRoom room _ _ _, r => decide (r.roomId ≠ room)
  | deleteAttachments rows, r => decide (r.id ∉ rows.map AttachmentRow.id)
  | _, _ => true

/-- The message that is new. -/
def newMessages : AttachmentWrite → List ChatMessage
  | sendMessage m _ _ => [m]
  | _ => []

/-- By how much the replies of a root become more. -/
def replyChange : AttachmentWrite → Ulid → ℤ
  | sendMessage m _ _, id => if m.threadRootId = some id then 1 else 0
  | softDeleteMessage m _ _, id => if m.threadRootId = some id then -1 else 0
  | _, _ => 0

variable {w : AttachmentWrite} {d : AttachmentTables} {x : ChatMessage} {r : AttachmentRow}

theorem messages_updateRoot {root : Option Ulid} {f : ChatMessage → ChatMessage} :
    (d.updateRoot root f).messages = d.messages.map fun x => if root = some x.id then f x else x := by
  cases root with
  | none => simp [AttachmentTables.updateRoot]
  | some =>
    refine map_congr_left fun x _ => ?_
    simp only [Option.some.injEq, eq_comm]

theorem filter_keepsMessage (h : ∀ x, w.keepsMessage x = true) :
    d.messages.filter w.keepsMessage = d.messages := filter_eq_self.mpr fun x _ => h x

theorem filter_keepsAttachment (h : ∀ r, w.keepsAttachment r = true) :
    d.attachments.filter w.keepsAttachment = d.attachments := filter_eq_self.mpr fun r _ => h r

theorem messages_perform :
    (d.perform w).messages = (d.messages.filter w.keepsMessage).map w.onMessage ++ w.newMessages := by
  cases w with
  | sendMessage m numbers =>
    rw [filter_keepsMessage fun _ => rfl]
    show ((d.setRoom m.roomId numbers).updateRoot _ _).messages ++ [m] = _
    rw [messages_updateRoot]
    rfl
  | softDeleteMessage m numbers =>
    rw [filter_keepsMessage fun _ => rfl]
    show (AttachmentTables.updateRoot _ _ _).messages = _ ++ []
    rw [messages_updateRoot, append_nil]
    show (d.messages.map _).map _ = _
    rw [List.map_map]
    refine map_congr_left fun x _ => ?_
    show (if m.threadRootId = some (if x.id = m.id then _ else x).id then _ else _) = _
    have hid : (if x.id = m.id then x.softDelete (numbers.lastChangeSeq -
        if m.threadRootId.isSome then 1 else 0) else x).id = x.id := by
      split <;> rfl
    rw [hid]
    rfl
  | deleteRoom =>
    exact ((append_nil _).trans (List.map_id _)).symm
  | updateMessageBody | deleteMessageAttachment =>
    rw [filter_keepsMessage fun _ => rfl]
    exact (append_nil _).symm
  | _ =>
    rw [filter_keepsMessage fun _ => rfl]
    exact ((append_nil _).trans (List.map_id _)).symm

theorem attachments_perform :
    (d.perform w).attachments = (d.attachments.filter w.keepsAttachment).map w.onAttachment := by
  cases w with
  | sendMessage m =>
    rw [filter_keepsAttachment fun _ => rfl]
    cases hroot : m.threadRootId <;> simp only [AttachmentTables.perform, hroot] <;> rfl
  | softDeleteMessage m =>
    rw [filter_keepsAttachment fun _ => rfl]
    cases hroot : m.threadRootId <;> simp only [AttachmentTables.perform, hroot] <;> rfl
  | updateMessageBody =>
    rw [filter_keepsAttachment fun _ => rfl]
    exact (List.map_id _).symm
  | deleteMessageAttachment =>
    rw [filter_keepsAttachment fun _ => rfl]
    rfl
  | deleteRoom => exact (List.map_id _).symm
  | deleteAttachments => exact (List.map_id _).symm
  | deleteStorageDeletions =>
    rw [filter_keepsAttachment fun _ => rfl]
    exact (List.map_id _).symm

/-- What no write changes of a message. -/
theorem onMessage_same : (w.onMessage x).id = x.id ∧ (w.onMessage x).roomId = x.roomId ∧
    (w.onMessage x).senderId = x.senderId ∧ (w.onMessage x).kind = x.kind ∧
    (w.onMessage x).threadRootId = x.threadRootId := by
  cases w with
  | softDeleteMessage =>
    simp only [onMessage]
    split <;> split <;> exact ⟨rfl, rfl, rfl, rfl, rfl⟩
  | sendMessage m numbers ids | updateMessageBody m numbers body
  | deleteMessageAttachment =>
    simp only [onMessage]
    split <;> exact ⟨rfl, rfl, rfl, rfl, rfl⟩
  | _ => exact ⟨rfl, rfl, rfl, rfl, rfl⟩

theorem onAttachment_same : (w.onAttachment r).id = r.id ∧ (w.onAttachment r).roomId = r.roomId ∧
    (w.onAttachment r).uploaderId = r.uploaderId ∧ (w.onAttachment r).createdAt = r.createdAt := by
  cases w with
  | sendMessage m numbers ids | softDeleteMessage m numbers ids
  | deleteMessageAttachment =>
    simp only [onAttachment]
    split <;> exact ⟨rfl, rfl, rfl, rfl⟩
  | _ => exact ⟨rfl, rfl, rfl, rfl⟩

/-- A message that is not locked stays as it is. -/
theorem onMessage_of_notMem (h : .message x.id ∉ w.held) : w.onMessage x = x := by
  cases w with
  | sendMessage =>
    refine if_neg fun hroot => h ?_
    simp [held, ChatMessage.sendLocks, hroot]
  | softDeleteMessage m =>
    have hid : x.id ≠ m.id := fun hid => h (by simp [held, ChatMessage.deleteLocks, hid])
    have hroot : m.threadRootId ≠ some x.id := fun hroot =>
      h (by simp [held, ChatMessage.deleteLocks, hroot])
    simp only [onMessage, if_neg hid, if_neg hroot]
  | updateMessageBody | deleteMessageAttachment =>
    refine if_neg fun hid => h ?_
    simp [held, hid]
  | _ => rfl

/-- An attachment that is not locked stays as it is. -/
theorem onAttachment_of_notMem (h : .attachment r.id ∉ w.held) : w.onAttachment r = r := by
  cases w with
  | sendMessage | softDeleteMessage =>
    refine if_neg fun hid => h ?_
    simp [held, hid]
  | deleteMessageAttachment =>
    refine if_neg fun hid => h ?_
    rw [mem_singleton.mp hid]
    simp [held]
  | _ => rfl

/-- A message that is deleted with its room is locked. -/
theorem keepsMessage_of_notMem (hf : w.Fits d) (hx : x ∈ d.messages) (h : .message x.id ∉ w.held) :
    w.keepsMessage x = true := by
  cases w with
  | deleteRoom =>
    refine decide_eq_true fun hroom => h ?_
    simp [held, hf.2.1 x hx hroom]
  | _ => rfl

/-- An attachment whose row is deleted is locked. -/
theorem keepsAttachment_of_notMem (hf : w.Fits d) (hr : r ∈ d.attachments)
    (h : .attachment r.id ∉ w.held) : w.keepsAttachment r = true := by
  cases w with
  | deleteRoom =>
    refine decide_eq_true fun hroom => h ?_
    simp [held, (hf.2.2.1 r hr hroom).1]
  | deleteAttachments =>
    refine decide_eq_true fun hmem => h ?_
    obtain ⟨r', hr', heq⟩ := List.mem_map.mp hmem
    exact List.mem_map.mpr ⟨r', hr', by rw [heq]⟩
  | _ => rfl

/-- A room that is not locked stays as it is. -/
theorem rooms_perform_of_notMem {id : Ulid} (h : .room id ∉ w.held) :
    (d.perform w).rooms id = d.rooms id := by
  have hupdate : ∀ {room : Ulid} {v : Option RoomRecord}, .room room ∈ w.held →
      update d.rooms room v id = d.rooms id := fun {room v} hroom =>
    update_of_ne (fun heq => h (by rwa [heq])) _ _
  cases w with
  | sendMessage m numbers ids =>
    have hroom : .room m.roomId ∈ held (sendMessage m numbers ids) := by
      simp [held, ChatMessage.sendLocks]
    cases hroot : m.threadRootId with
    | _ =>
      simp only [AttachmentTables.perform, hroot]
      exact hupdate hroom
  | softDeleteMessage m numbers ids =>
    have hroom : .room m.roomId ∈ held (softDeleteMessage m numbers ids) := by simp [held]
    cases hroot : m.threadRootId with
    | _ =>
      simp only [AttachmentTables.perform, hroot]
      exact hupdate hroom
  | deleteAttachments | deleteStorageDeletions => rfl
  | _ => exact hupdate (by simp [held])

/-- A room that is there stays there, unless it is deleted. -/
theorem rooms_perform_isSome {id : Ulid} (hroom : (d.rooms id).isSome)
    (h : ∀ messages attachments deletions, w ≠ deleteRoom id messages attachments deletions) :
    ((d.perform w).rooms id).isSome := by
  have hupdate : ∀ {room : Ulid} {numbers : RoomRecord},
      (update d.rooms room (some numbers) id).isSome := by
    intro room numbers
    by_cases heq : id = room
    · rw [heq, update_self]
      rfl
    · rwa [update_of_ne heq]
  cases w with
  | sendMessage m =>
    cases hroot : m.threadRootId <;> simp only [AttachmentTables.perform, hroot] <;> exact hupdate
  | softDeleteMessage m =>
    cases hroot : m.threadRootId <;> simp only [AttachmentTables.perform, hroot] <;> exact hupdate
  | updateMessageBody => exact hupdate
  | deleteMessageAttachment => exact hupdate
  | deleteRoom room =>
    show (update d.rooms room none id).isSome
    rwa [update_of_ne fun heq => h _ _ _ (by rw [heq])]
  | deleteAttachments => exact hroom
  | deleteStorageDeletions => exact hroom

/-- **What becomes attached** to a message, becomes attached to one that is new. -/
theorem onAttachment_attachedTo {id : Ulid} (h : (w.onAttachment r).attachedTo id = true) :
    w.onAttachment r = r ∨ ∃ m ∈ w.newMessages, m.id = id := by
  have hdeleted : r.delete.attachedTo id ≠ true := fun hd =>
    absurd (of_decide_eq_true hd).2 (by simp [AttachmentRow.delete])
  cases w with
  | sendMessage m =>
    simp only [onAttachment] at h ⊢
    split at h
    · exact .inr ⟨m, .head _, some.inj (of_decide_eq_true h).1⟩
    · next hid => exact .inl (if_neg hid)
  | softDeleteMessage | deleteMessageAttachment =>
    simp only [onAttachment] at h ⊢
    split at h
    · exact absurd h hdeleted
    · next hid => exact .inl (if_neg hid)
  | _ => exact .inl rfl

/-- What is attached to a message that is not locked stays as it is. -/
theorem keeps_of_attachedTo {id : Ulid} (hd : d.Sound) (hf : w.Fits d) (hr : r ∈ d.attachments)
    (h : r.attachedTo id = true) (hid : .message id ∉ w.held) :
    w.keepsAttachment r = true ∧ w.onAttachment r = r := by
  have hother : ∀ {m : ChatMessage}, d.Attached m r.id → m.id = id := fun ha =>
    attachedTo_inj (hd.attached_iff ha hr rfl) h
  cases w with
  | sendMessage =>
    refine ⟨rfl, if_neg fun hmem => ?_⟩
    cases h.symm.trans (hd.not_attachedTo_of_takes hf.2 hr hmem id)
  | softDeleteMessage =>
    refine ⟨rfl, if_neg fun hmem => hid ?_⟩
    rw [← hother (hf.2.2 _ hmem)]
    simp [held, ChatMessage.deleteLocks]
  | deleteMessageAttachment =>
    refine ⟨rfl, if_neg fun hmem => hid ?_⟩
    rw [mem_singleton] at hmem
    rw [← hother (hmem ▸ hf.2.2.1)]
    simp [held]
  | deleteRoom =>
    refine ⟨decide_eq_true fun hroom => hid ?_, rfl⟩
    obtain ⟨m, hm, rfl, hsame, -⟩ := hd.ofMessage r hr id (of_decide_eq_true h).1
    simp [held, hf.2.1 m hm (hsame.trans hroom)]
  | deleteAttachments =>
    refine ⟨decide_eq_true fun hmem => ?_, rfl⟩
    obtain ⟨r', hr', heq⟩ := List.mem_map.mp hmem
    obtain ⟨hmem', hstatus⟩ := hf r' hr'
    obtain rfl := hd.attachment_eq hmem' hr heq
    exact hstatus (of_decide_eq_true h).2
  | _ => exact ⟨rfl, rfl⟩

/-- **What is written spares what others have locked.** -/
theorem spares_perform {locks : List AttachmentLock} (hd : d.Sound) (hf : w.Fits d)
    (hnew : ∀ m ∈ w.newMessages, m.id ∉ d.messages.map fun m => m.id)
    (hl : ∀ l ∈ locks, l ∉ w.held)
    (hthere : ∀ id, .message id ∈ locks → id ∈ d.messages.map fun m => m.id) :
    SparesRows locks d (d.perform w) where
  message := by
    intro m hm hlock
    rw [messages_perform]
    refine mem_append_left _ (List.mem_map.mpr ⟨m, mem_filter.mpr ⟨hm, ?_⟩, ?_⟩)
    · exact keepsMessage_of_notMem hf hm (hl _ hlock)
    · exact onMessage_of_notMem (hl _ hlock)
  attachedTo := by
    intro id hlock r hattached
    rw [attachments_perform]
    constructor
    · intro hr
      obtain ⟨r₀, hr₀, rfl⟩ := List.mem_map.mp hr
      rcases onAttachment_attachedTo hattached with heq | ⟨m, hm, rfl⟩
      · rw [heq]
        exact mem_of_mem_filter hr₀
      · exact absurd (hthere _ hlock) (hnew m hm)
    · intro hr
      obtain ⟨hkeeps, hsame⟩ := keeps_of_attachedTo hd hf hr hattached (hl _ hlock)
      exact List.mem_map.mpr ⟨r, mem_filter.mpr ⟨hr, hkeeps⟩, hsame⟩
  attachment := by
    intro r hr hlock
    rw [attachments_perform]
    refine List.mem_map.mpr ⟨r, mem_filter.mpr ⟨hr, ?_⟩, ?_⟩
    · exact keepsAttachment_of_notMem hf hr (hl _ hlock)
    · exact onAttachment_of_notMem (hl _ hlock)
  room := fun id hlock => rooms_perform_of_notMem (hl _ hlock)
  inRoom := by
    intro m' hm' hlock
    rw [messages_perform] at hm'
    rcases mem_append.mp hm' with hm' | hm'
    · obtain ⟨m, hm, rfl⟩ := List.mem_map.mp hm'
      exact ⟨m, mem_of_mem_filter hm, onMessage_same.1.symm, onMessage_same.2.1.symm⟩
    · -- a message that is new is in a room that the writer has locked
      cases w with
      | sendMessage =>
        obtain rfl := mem_singleton.mp hm'
        exact absurd (by simp [held, ChatMessage.sendLocks]) (hl _ hlock)
      | _ => cases hm'
  roomKey := by
    intro r' hr' _
    rw [attachments_perform] at hr'
    obtain ⟨r, hr, rfl⟩ := List.mem_map.mp hr'
    exact ⟨r, mem_of_mem_filter hr, onAttachment_same.1.symm, onAttachment_same.2.1.symm⟩
  storageDeletion := by
    intro e he hlock
    cases w with
    | sendMessage m | softDeleteMessage m =>
      cases hroot : m.threadRootId <;> simp only [AttachmentTables.perform, hroot] <;> exact he
    | deleteRoom => exact mem_append_left _ he
    | deleteStorageDeletions =>
      refine mem_filter.mpr ⟨he, decide_eq_true fun hmem => hl _ hlock ?_⟩
      obtain ⟨e', he', heq⟩ := List.mem_map.mp hmem
      exact List.mem_map.mpr ⟨e', he', by rw [heq]⟩
    | _ => exact he

/-! ## Writing keeps the tables sound -/

theorem keepsMessage_congr {m : ChatMessage} (h : x.roomId = m.roomId) :
    w.keepsMessage x = w.keepsMessage m := by
  cases w with
  | deleteRoom => simp only [keepsMessage, h]
  | _ => rfl

/-- A message stays if an attachment of its room does. -/
theorem keepsMessage_of_keepsAttachment (h : x.roomId = r.roomId)
    (hr : w.keepsAttachment r = true) : w.keepsMessage x = true := by
  cases w with
  | deleteRoom =>
    refine decide_eq_true ?_
    rw [h]
    exact of_decide_eq_true hr
  | _ => rfl

theorem mem_messages_perform (hx : x ∈ d.messages) (hk : w.keepsMessage x = true) :
    w.onMessage x ∈ (d.perform w).messages := by
  rw [messages_perform]
  exact mem_append_left _ (List.mem_map_of_mem (mem_filter.mpr ⟨hx, hk⟩))

theorem mem_attachments_perform (hr : r ∈ d.attachments) (hk : w.keepsAttachment r = true) :
    w.onAttachment r ∈ (d.perform w).attachments := by
  rw [attachments_perform]
  exact List.mem_map_of_mem (mem_filter.mpr ⟨hr, hk⟩)

/-- A message that is there was there, or is new. -/
theorem exists_of_mem_messages_perform (h : x' ∈ (d.perform w).messages) :
    (∃ x ∈ d.messages, w.keepsMessage x = true ∧ w.onMessage x = x') ∨ x' ∈ w.newMessages := by
  rw [messages_perform] at h
  rcases mem_append.mp h with h | h
  · obtain ⟨x, hx, rfl⟩ := List.mem_map.mp h
    exact .inl ⟨x, (mem_filter.mp hx).1, (mem_filter.mp hx).2, rfl⟩
  · exact .inr h

theorem exists_of_mem_attachments_perform {r' : AttachmentRow}
    (h : r' ∈ (d.perform w).attachments) :
    ∃ r ∈ d.attachments, w.keepsAttachment r = true ∧ w.onAttachment r = r' := by
  rw [attachments_perform] at h
  obtain ⟨r, hr, rfl⟩ := List.mem_map.mp h
  exact ⟨r, (mem_filter.mp hr).1, (mem_filter.mp hr).2, rfl⟩

/-- The messages of others have their roots. -/
theorem hasRoot_perform (hd : d.Sound) {m m' : ChatMessage} (hm : d.HasRoot m)
    (hk : w.keepsMessage m = true) (hroom : m'.roomId = m.roomId)
    (hroot : m'.threadRootId = m.threadRootId) : (d.perform w).HasRoot m' := by
  intro root h
  obtain ⟨x, hx, hid, hsame, hnone⟩ := hm root (hroot ▸ h)
  obtain ⟨hid', hroom', -, -, hroot'⟩ := onMessage_same (w := w) (x := x)
  refine ⟨w.onMessage x, mem_messages_perform hx ((keepsMessage_congr hsame).trans hk),
    hid'.trans hid, ?_, hroot'.trans hnone⟩
  rw [hroom', hsame, hroom]

/-- **How many replies count** after a write. -/
theorem countP_perform (hd : d.Sound) (hf : w.Fits d) {id : Ulid}
    (hid : ∃ m ∈ d.messages, m.id = id ∧ w.keepsMessage m = true) :
    ((d.perform w).messages.countP (ChatMessage.liveReply id) : ℤ) =
      d.messages.countP (ChatMessage.liveReply id) + w.replyChange id := by
  have hsame : (∀ x, w.keepsMessage x = true) → w.newMessages = [] →
      (∀ x, (w.onMessage x).liveReply id = x.liveReply id) →
      (d.perform w).messages.countP (ChatMessage.liveReply id) =
        d.messages.countP (ChatMessage.liveReply id) := by
    intro hk hn hon
    rw [messages_perform, hn, append_nil, filter_keepsMessage hk, countP_map]
    exact countP_congr fun x _ => by rw [comp_apply, hon x]
  cases w with
  | sendMessage m numbers ids =>
    rw [messages_perform, filter_keepsMessage fun _ => rfl, countP_append, countP_map]
    have hon : d.messages.countP (ChatMessage.liveReply id ∘ onMessage (sendMessage m numbers ids)) =
        d.messages.countP (ChatMessage.liveReply id) := by
      refine countP_congr fun x _ => ?_
      show ChatMessage.liveReply id (if _ then _ else _) = true ↔ _
      split <;> exact .rfl
    rw [hon]
    show ((_ + [m].countP _ : ℕ) : ℤ) = _
    rw [countP_singleton, ChatMessage.liveReply, hf.1.user.2.1]
    by_cases hroot : m.threadRootId = some id <;> simp [replyChange, hroot]
  | softDeleteMessage m numbers ids =>
    rw [messages_perform, filter_keepsMessage fun _ => rfl]
    show ((((d.messages.map _) ++ []).countP _ : ℕ) : ℤ) = _
    rw [append_nil, countP_map]
    -- the root's own row does not matter
    have hon : d.messages.countP (ChatMessage.liveReply id ∘
          onMessage (softDeleteMessage m numbers ids)) =
        (d.messages.map fun x => if x.id = m.id then x.softDelete (numbers.lastChangeSeq -
          if m.threadRootId.isSome then 1 else 0) else x).countP (ChatMessage.liveReply id) := by
      rw [countP_map]
      refine countP_congr fun x _ => ?_
      simp only [comp_apply, onMessage]
      split <;> exact .rfl
    have hcount := KeyedRows.countP_update_of_mem (f := ChatMessage.softDelete
      (numbers.lastChangeSeq - if m.threadRootId.isSome then 1 else 0))
      (p := ChatMessage.liveReply id) hd.messages hf.1.1
    have hdeleted : ChatMessage.liveReply id (m.softDelete (numbers.lastChangeSeq -
        if m.threadRootId.isSome then 1 else 0)) = false := by
      simp [ChatMessage.liveReply, ChatMessage.softDelete]
    have hlive : ChatMessage.liveReply id m = decide (m.threadRootId = some id) := by
      rw [ChatMessage.liveReply, hf.1.2.2, Bool.not_false, Bool.and_true]
    rw [hdeleted, hlive] at hcount
    rw [hon]
    by_cases hroot : m.threadRootId = some id
    · simp only [replyChange, hroot, decide_true, if_true, Bool.false_eq_true, if_false] at hcount ⊢
      omega
    · simp only [replyChange, hroot, decide_false, if_false, Bool.false_eq_true] at hcount ⊢
      omega
  | deleteRoom room messages attachments deletions =>
    obtain ⟨m, hm, rfl, hk⟩ := hid
    rw [messages_perform]
    show ((((d.messages.filter _).map id ++ []).countP _ : ℕ) : ℤ) = _ + 0
    rw [append_nil, List.map_id, countP_filter, add_zero]
    refine congrArg _ (countP_congr fun y hy => ?_)
    rw [Bool.and_eq_true, and_iff_left_iff_imp]
    intro hreply
    -- a reply is in the room of its root
    obtain ⟨hroot, -⟩ := Bool.and_eq_true_iff.mp hreply
    obtain ⟨z, hz, hzid, hroom, -⟩ := hd.roots y hy m.id (of_decide_eq_true hroot)
    obtain rfl := hd.message_eq hz hm hzid
    exact (keepsMessage_congr (w := deleteRoom room messages attachments deletions) hroom).symm.trans hk
  | deleteAttachments | deleteStorageDeletions =>
    exact (congrArg Nat.cast (hsame (fun _ => rfl) rfl fun x => rfl)).trans (add_zero _).symm
  | _ =>
    refine (congrArg Nat.cast (hsame (fun _ => rfl) rfl fun x => ?_)).trans (add_zero _).symm
    simp only [onMessage]
    split <;> rfl

/-- What a write does to the number of replies that a root counts. -/
theorem threadReplyCount_onMessage :
    (w.onMessage x).threadReplyCount = x.threadReplyCount + w.replyChange x.id := by
  cases w with
  | sendMessage =>
    simp only [onMessage, replyChange]
    split
    · rfl
    · exact (add_zero _).symm
  | softDeleteMessage m numbers =>
    simp only [onMessage, replyChange]
    have hcount : (if x.id = m.id then x.softDelete (numbers.lastChangeSeq -
        if m.threadRootId.isSome then 1 else 0) else x).threadReplyCount = x.threadReplyCount := by
      split <;> rfl
    split
    · show (if x.id = m.id then _ else x).threadReplyCount - 1 = _
      rw [hcount, sub_eq_add_neg]
    · rw [hcount, add_zero]
  | updateMessageBody | deleteMessageAttachment =>
    simp only [onMessage]
    split <;> exact (add_zero _).symm
  | _ => exact (add_zero _).symm

/-- A message that is written keeps its body, or gets one that says something, unless it is deleted. -/
theorem live_onMessage (hf : w.Fits d) (h : (w.onMessage x).deleted = false) :
    x.deleted = false ∧ (GoText.blank x.body = false → GoText.blank (w.onMessage x).body = false) := by
  cases w with
  | sendMessage m =>
    by_cases hroot : m.threadRootId = some x.id
    · simp only [onMessage, if_pos hroot] at h ⊢
      exact ⟨h, id⟩
    · simp only [onMessage, if_neg hroot] at h ⊢
      exact ⟨h, id⟩
  | updateMessageBody m =>
    by_cases hid : x.id = m.id
    · simp only [onMessage, if_pos hid] at h ⊢
      exact ⟨h, fun _ => hf.2.2⟩
    · simp only [onMessage, if_neg hid] at h ⊢
      exact ⟨h, id⟩
  | softDeleteMessage m =>
    by_cases hid : x.id = m.id
    · simp only [onMessage, if_pos hid] at h
      split at h <;> exact absurd h (by simp [ChatMessage.softDelete, ChatMessage.removeReply])
    · by_cases hroot : m.threadRootId = some x.id
      · simp only [onMessage, if_neg hid, if_pos hroot] at h ⊢
        exact ⟨h, id⟩
      · simp only [onMessage, if_neg hid, if_neg hroot] at h ⊢
        exact ⟨h, id⟩
  | deleteMessageAttachment m =>
    by_cases hid : x.id = m.id
    · simp only [onMessage, if_pos hid] at h ⊢
      exact ⟨h, id⟩
    · simp only [onMessage, if_neg hid] at h ⊢
      exact ⟨h, id⟩
  | _ => exact ⟨h, id⟩

/-- **Nothing is left blank** by a write. -/
theorem content_perform (hd : d.Sound) (hf : w.Fits d)
    (hx' : (d.perform w).Live x') : GoText.blank x'.body = false ∨
      ∃ r ∈ (d.perform w).attachments, r.attachedTo x'.id = true := by
  obtain ⟨hmem, huser, hdeleted⟩ := hx'
  rcases exists_of_mem_messages_perform hmem with ⟨x, hx, hk, rfl⟩ | hnew
  · obtain ⟨hid, -, -, hkind, -⟩ := onMessage_same (w := w) (x := x)
    obtain ⟨hlive, hbody⟩ := live_onMessage hf hdeleted
    rcases hd.content x ⟨hx, hkind ▸ huser, hlive⟩ with hsays | ⟨r, hr, hattached⟩
    · exact .inl (hbody hsays)
    · -- an attachment that stays as it is will do
      have hstays : w.keepsAttachment r = true ∧ w.onAttachment r = r → GoText.blank
          (w.onMessage x).body = false ∨ ∃ r ∈ (d.perform w).attachments,
            r.attachedTo (w.onMessage x).id = true := fun ⟨hkeeps, hsame⟩ =>
        .inr ⟨r, hsame ▸ mem_attachments_perform hr hkeeps, by rw [hid]; exact hattached⟩
      by_cases hheld : .message x.id ∈ w.held
      · cases w with
        | sendMessage =>
          refine hstays ⟨rfl, if_neg fun hmem => ?_⟩
          cases hattached.symm.trans (hd.not_attachedTo_of_takes hf.2 hr hmem x.id)
        | updateMessageBody => exact hstays ⟨rfl, rfl⟩
        | softDeleteMessage m numbers ids =>
          refine hstays ⟨rfl, if_neg fun hmem => ?_⟩
          have hsame : x.id = m.id := attachedTo_inj hattached
            (hd.attached_iff (hf.2.2 _ hmem) hr rfl)
          have hgone : (onMessage (softDeleteMessage m numbers ids) x).deleted = true := by
            simp only [onMessage, if_pos hsame]
            split <;> rfl
          cases hgone.symm.trans hdeleted
        | deleteMessageAttachment m numbers attachment =>
          by_cases hsame : x.id = m.id
          · obtain rfl := hd.message_eq hx hf.1.1 hsame
            rcases hf.2.2.2 with hsays | ⟨r', hr', hattached', hne⟩
            · exact .inl (hbody hsays)
            · refine .inr ⟨r', ?_, by rw [hid]; exact hattached'⟩
              have hother : r'.id ∉ [attachment] := fun h => hne (mem_singleton.mp h)
              have hmem' := mem_attachments_perform (w := deleteMessageAttachment x numbers attachment)
                hr' rfl
              simp only [onAttachment, if_neg hother] at hmem'
              exact hmem'
          · refine hstays ⟨rfl, if_neg fun hmem => hsame ?_⟩
            rw [mem_singleton] at hmem
            exact attachedTo_inj hattached (hd.attached_iff hf.2.2.1 hr hmem)
        | deleteRoom =>
          obtain ⟨y, hy, hyid, hroom, -⟩ := hd.ofMessage r hr x.id (of_decide_eq_true hattached).1
          obtain rfl := hd.message_eq hy hx hyid
          refine hstays ⟨decide_eq_true ?_, rfl⟩
          rw [← hroom]
          exact of_decide_eq_true hk
        | _ => exact absurd hheld (by simp [held])
      · exact hstays (keeps_of_attachedTo hd hf hr hattached hheld)
  · -- a message that is new has what it takes
    cases w with
    | sendMessage _ numbers ids =>
      obtain rfl := mem_singleton.mp hnew
      cases hblank : GoText.blank x'.body with
      | false => exact .inl rfl
      | true =>
        obtain ⟨id, hid⟩ := exists_mem_of_ne_nil _ (hf.1.content hblank)
        obtain ⟨r, hr, rfl, -⟩ := hf.2 id hid
        have hmem := mem_attachments_perform (w := sendMessage x' numbers ids) hr rfl
        simp only [onAttachment, if_pos hid] at hmem
        exact .inr ⟨_, hmem, decide_eq_true ⟨rfl, rfl⟩⟩
    | _ => cases hnew

theorem rooms_perform_none (hf : w.Fits d) {id : Ulid} (h : d.rooms id = none) :
    (d.perform w).rooms id = none := by
  by_cases hheld : .room id ∈ w.held
  · have hthere : (d.rooms id).isSome → (d.perform w).rooms id = none := fun hsome => by
      rw [h] at hsome
      cases hsome
    cases w with
    | sendMessage m =>
      have hid : id = m.roomId := by simpa [held, ChatMessage.sendLocks] using hheld
      exact hthere (hid ▸ hf.1.room)
    | updateMessageBody m =>
      have hid : id = m.roomId := by simpa [held] using hheld
      exact hthere (hid ▸ hf.2.1)
    | softDeleteMessage m =>
      have hid : id = m.roomId := by simpa [held, ChatMessage.deleteLocks] using hheld
      exact hthere (hid ▸ hf.2.1)
    | deleteMessageAttachment m =>
      have hid : id = m.roomId := by simpa [held] using hheld
      exact hthere (hid ▸ hf.2.1)
    | deleteRoom room =>
      have hid : id = room := by simpa [held] using hheld
      show update d.rooms room none id = none
      rw [hid, update_self]
    | deleteAttachments => exact h
    | deleteStorageDeletions => exact h
  · rw [rooms_perform_of_notMem hheld, h]

/-- **Writing keeps the tables sound.** -/
theorem sound_perform (hd : d.Sound) (hf : w.Fits d)
    (hnew : ∀ m ∈ w.newMessages, m.id ∉ d.messages.map fun m => m.id) : (d.perform w).Sound where
  messages := by
    rw [messages_perform, map_append, List.map_map]
    have hsame : (d.messages.filter w.keepsMessage).map ((fun m => m.id) ∘ w.onMessage) =
        (d.messages.filter w.keepsMessage).map fun m => m.id :=
      map_congr_left fun x _ => onMessage_same.1
    rw [hsame]
    have hsub : ((d.messages.filter w.keepsMessage).map fun m => m.id).Sublist
        (d.messages.map fun m => m.id) := filter_sublist.map _
    refine nodup_append.mpr ⟨hd.messages.sublist hsub, ?_, ?_⟩
    · cases w <;> simp [newMessages]
    · rintro id hid id' hid' rfl
      obtain ⟨m, hm, rfl⟩ := List.mem_map.mp hid'
      exact hnew m hm (hsub.subset hid)
  attachments := by
    rw [attachments_perform, List.map_map]
    have hsame : (d.attachments.filter w.keepsAttachment).map (AttachmentRow.id ∘ w.onAttachment) =
        (d.attachments.filter w.keepsAttachment).map AttachmentRow.id :=
      map_congr_left fun r _ => onAttachment_same.1
    rw [hsame]
    exact hd.attachments.sublist (filter_sublist.map _)
  roots := by
    intro x' hx'
    rcases exists_of_mem_messages_perform hx' with ⟨x, hx, hk, rfl⟩ | hx'
    · obtain ⟨-, hroom, -, -, hroot⟩ := onMessage_same (w := w) (x := x)
      exact hasRoot_perform hd (hd.roots x hx) hk hroom hroot
    · cases w with
      | sendMessage =>
        obtain rfl := mem_singleton.mp hx'
        exact hasRoot_perform hd hf.1.root rfl rfl rfl
      | _ => cases hx'
  replies := by
    intro x' hx'
    rcases exists_of_mem_messages_perform hx' with ⟨x, hx, hk, rfl⟩ | hx'
    · rw [threadReplyCount_onMessage, onMessage_same.1,
        countP_perform hd hf ⟨x, hx, rfl, hk⟩, hd.replies x hx]
    · cases w with
      | sendMessage _ numbers ids =>
        obtain rfl := mem_singleton.mp hx'
        rw [hf.1.user.2.2, eq_comm]
        -- nobody has replied to it yet
        refine congrArg Nat.cast (countP_eq_zero.mpr fun y hy hreply => ?_)
        obtain ⟨hroot, -⟩ := Bool.and_eq_true_iff.mp hreply
        have hy' : d.HasRoot y ∨ y = x' := by
          rcases exists_of_mem_messages_perform hy with ⟨z, hz, -, rfl⟩ | hy
          · refine .inl fun root h => ?_
            obtain ⟨-, hroom, -, -, hroot'⟩ :=
              onMessage_same (w := sendMessage x' numbers ids) (x := z)
            rw [hroot'] at h
            rw [hroom]
            exact hd.roots z hz root h
          · exact .inr (mem_singleton.mp hy)
        have hthere : d.HasRoot y := hy'.elim id fun h => h ▸ hf.1.root
        obtain ⟨z, hz, hid, -⟩ := hthere x'.id (of_decide_eq_true hroot)
        exact hnew x' (.head _) (List.mem_map.mpr ⟨z, hz, hid⟩)
      | _ => cases hx'
  content := fun x hx => content_perform hd hf hx
  sent := by
    intro r' hr'
    obtain ⟨r, hr, -, rfl⟩ := exists_of_mem_attachments_perform hr'
    have hdeleted : ∀ {m : ChatMessage}, d.Attached m r.id →
        (r.delete.messageId.isSome ↔ r.delete.status = .attached ∨ r.delete.status = .deleted) := by
      intro m ha
      obtain ⟨hmessage, -⟩ := of_decide_eq_true (hd.attached_iff ha hr rfl)
      exact ⟨fun _ => .inr rfl, fun _ => by
        show r.messageId.isSome
        rw [hmessage]
        rfl⟩
    cases w with
    | sendMessage =>
      simp only [onAttachment]
      split
      · exact ⟨fun _ => .inl rfl, fun _ => rfl⟩
      · exact hd.sent r hr
    | softDeleteMessage =>
      simp only [onAttachment]
      split
      · next hid => exact hdeleted (hf.2.2 _ hid)
      · exact hd.sent r hr
    | deleteMessageAttachment =>
      simp only [onAttachment]
      split
      · next hid =>
        have ha := hf.2.2.1
        rw [← mem_singleton.mp hid] at ha
        exact hdeleted ha
      · exact hd.sent r hr
    | _ => exact hd.sent r hr
  ofMessage := by
    intro r' hr' id hid
    obtain ⟨r, hr, hk, rfl⟩ := exists_of_mem_attachments_perform hr'
    obtain ⟨-, hroom, hsender, -⟩ := onAttachment_same (w := w) (r := r)
    have hold : id ∈ r.messageId → ∃ m ∈ (d.perform w).messages,
        m.id = id ∧ m.roomId = (w.onAttachment r).roomId ∧
          m.senderId = (w.onAttachment r).uploaderId := by
      intro hid
      obtain ⟨m, hm, rfl, hroom', hsender'⟩ := hd.ofMessage r hr id hid
      obtain ⟨hid', hroom'', hsender'', -⟩ := onMessage_same (w := w) (x := m)
      exact ⟨_, mem_messages_perform hm (keepsMessage_of_keepsAttachment hroom' hk), hid',
        hroom''.trans (hroom'.trans hroom.symm), hsender''.trans (hsender'.trans hsender.symm)⟩
    cases w with
    | sendMessage m =>
      simp only [onAttachment] at hid hold ⊢
      split at hid
      · next hmem =>
        obtain rfl : m.id = id := some.inj hid
        obtain ⟨r₀, hr₀, heq, hattachable⟩ := hf.2 _ hmem
        obtain rfl := hd.attachment_eq hr₀ hr heq
        obtain ⟨hsame, huploader, -⟩ := of_decide_eq_true hattachable
        rw [if_pos hmem]
        refine ⟨m, ?_, rfl, hsame.symm, huploader.symm⟩
        rw [messages_perform]
        exact mem_append_right _ (.head _)
      · exact hold hid
    | softDeleteMessage | deleteMessageAttachment =>
      refine hold ?_
      simp only [onAttachment] at hid
      split at hid <;> exact hid
    | _ => exact hold hid
  inRoom := by
    intro x' hx'
    rcases exists_of_mem_messages_perform hx' with ⟨x, hx, hk, rfl⟩ | hx'
    · rw [onMessage_same.2.1]
      refine rooms_perform_isSome (hd.inRoom x hx) fun messages attachments deletions heq => ?_
      subst heq
      exact absurd rfl (of_decide_eq_true hk)
    · cases w with
      | sendMessage =>
        obtain rfl := mem_singleton.mp hx'
        exact rooms_perform_isSome hf.1.room (by simp)
      | _ => cases hx'
  ofRoom := by
    intro r' hr'
    obtain ⟨r, hr, hk, rfl⟩ := exists_of_mem_attachments_perform hr'
    rw [onAttachment_same.2.1]
    refine rooms_perform_isSome (hd.ofRoom r hr) fun messages attachments deletions heq => ?_
    subst heq
    exact absurd rfl (of_decide_eq_true hk)
  gone := by
    intro e he
    have hold : e ∈ d.storageDeletions → (d.perform w).rooms e.objectKey.roomId = none := fun he =>
      rooms_perform_none hf (hd.gone e he)
    cases w with
    | sendMessage m | softDeleteMessage m =>
      refine hold ?_
      cases hroot : m.threadRootId <;> simp only [AttachmentTables.perform, hroot] at he <;> exact he
    | deleteRoom =>
      rcases mem_append.mp he with he | he
      · exact hold he
      · rw [hf.2.2.2 e (mem_of_mem_filter he)]
        exact update_self _ _ _
    | deleteStorageDeletions => exact hold (mem_of_mem_filter he)
    | _ => exact hold he

end AttachmentWrite

end Hibari
