import Hibari.StoredObjects

/-!
# Messages with their attachments

A message that is sent takes all the attachments that were asked for or none, a message that is
deleted leaves none, and what is neither deleted nor blank without them is never seen: what decides
between deleting a message and deleting one of its attachments is counted while the message is locked
(`Clears`), and everything is seen at once. A call that is refused has written nothing (`Sends`), nor
does one that deletes an attachment which is deleted already (`Removes`).
-/

namespace Hibari

open List AttachmentWrite

/-! ## What a message leaves -/

/-- **A message that is deleted** is deleted with all that it has: what a call that deletes one has
counted, or is about to mark. -/
def AttachmentTask.Clears (d : AttachmentTables) : AttachmentTask → Prop
  | softDeleteMessage m attachment | allocateDelete m attachment =>
    ∀ id ∈ attachment, ∀ r ∈ d.attachments, r.attachedTo m.id = true → r.id = id
  | marking m _ todo marked =>
    ∀ r ∈ d.attachments, r.attachedTo m.id = true → r.id ∈ marked ∨ r.id ∈ todo
  | commit (.softDeleteMessage m _ ids) =>
    ∀ r ∈ d.attachments, r.attachedTo m.id = true → r.id ∈ ids
  | _ => True

/-- What others write gives a message that is locked no attachments. -/
theorem AttachmentTask.Clears.spared {d d' : AttachmentTables} {t : AttachmentTask} (h : t.Clears d)
    (hs : SparesRows t.held d d') : t.Clears d' := by
  cases t with
  | softDeleteMessage m =>
    intro id hid r hr hattached
    exact h id hid r ((hs.attachedTo m.id (.head _) r hattached).mp hr) hattached
  | allocateDelete m =>
    intro id hid r hr hattached
    refine h id hid r ((hs.attachedTo m.id ?_ r hattached).mp hr) hattached
    exact mem_append_left _ (.head _)
  | marking m =>
    intro r hr hattached
    refine h r ((hs.attachedTo m.id ?_ r hattached).mp hr) hattached
    exact mem_append_left _ (mem_append_left _ (.head _))
  | commit w =>
    cases w with
    | softDeleteMessage m =>
      intro r hr hattached
      refine h r ((hs.attachedTo m.id ?_ r hattached).mp hr) hattached
      exact mem_append_left _ (mem_append_left _ (.head _))
    | _ => trivial
  | _ => trivial

namespace AttachmentService

variable {s s' : AttachmentService} {a : AttachmentAction} {t u : AttachmentTask} {i : ℕ}
  {m m' : ChatMessage} {r : AttachmentRow} {w : AttachmentWrite}
    {P : AttachmentService → AttachmentAction → Prop} {actor attachment room : Ulid}
    {input : SendMessageInput} (hs : s.Sound)
include hs

theorem Sound.roomId_of_attachedTo
    (hm : m ∈ s.tables.messages) (hr : r ∈ s.tables.attachments) (h : r.attachedTo m.id = true) :
    r.roomId = m.roomId := by
  obtain ⟨m', hm', hid, hroom, -⟩ := hs.tables.ofMessage r hr m.id (of_decide_eq_true h).1
  rw [← hroom, hs.tables.message_eq hm' hm hid]

theorem clears_turn (hf : t.Fits s.tables) (h : t.Clears s.tables) :
    (s.turn t).Clears (s.effect t).tables := by
  cases t with
  | deleteMessage =>
    simp only [turn]
    split
    · repeat' split
      · trivial
      · trivial
      · intro id hid
        cases hid
    · trivial
  | countMessageAttachments _ attachment =>
    simp only [turn]
    split
    · next hboth =>
      intro id hid r hr hattached
      obtain rfl : attachment = id := by simpa using hid
      by_contra hne
      -- it would have been counted
      refine absurd (eq_nil_of_length_eq_zero hboth.1) (ne_nil_of_mem (a := r) ?_)
      refine mem_filter.mpr ⟨hr, ?_⟩
      rw [hattached, decide_eq_true (hs.roomId_of_attachedTo hf.1.1 hr hattached), decide_eq_true hne]
      rfl
    · trivial
  | softDeleteMessage =>
    simp only [turn]
    split
    · exact h
    · trivial
  | allocateDelete _ attachment =>
    simp only [turn]
    split
    · cases attachment with
      | none => trivial
      | some id => exact fun r hr hattached => mem_singleton.mpr (h id rfl r hr hattached)
    · trivial
  | markMessageAttachmentsDeleted =>
    intro r hr hattached
    refine .inr (mem_map.mpr ⟨r, mem_filter.mpr ⟨hr, ?_⟩, rfl⟩)
    rw [hattached, decide_eq_true (hs.roomId_of_attachedTo hf.1.1 hr hattached)]
    rfl
  | marking _ _ todo =>
    cases todo with
    | nil => exact fun r hr hattached => (h r hr hattached).resolve_right not_mem_nil
    | cons id =>
      simp only [turn]
      split
      · intro r hr hattached
        rcases h r hr hattached with hmem | hmem
        · exact .inl (mem_append_left _ hmem)
        · exact (mem_cons.mp hmem).imp_left fun heq =>
            mem_append_right _ (mem_singleton.mpr heq)
      · next hnot =>
        intro r hr hattached
        refine (h r hr hattached).imp_right fun hmem => (mem_cons.mp hmem).resolve_left ?_
        rintro rfl
        refine hnot ?_
        have hfind : s.tables.getAttachment r.id = some r :=
          KeyedRows.find?_key hs.tables.attachments hr rfl
        rw [hfind, Option.any_some, hattached,
          decide_eq_true (hs.roomId_of_attachedTo hf.1.1 hr hattached)]
        rfl
  | attaching _ _ _ todo =>
    cases todo <;> simp only [turn] <;> split <;> trivial
  | deleteObjects _ todo | deleteDueObjects _ todo => cases todo <;> trivial
  | _ =>
    simp only [turn, refuse, invalidThreadRoot]
    repeat' split
    all_goals trivial

omit hs

/-- **No message that is deleted has attachments**, and one that is about to be leaves none. -/
structure Cleared (s : AttachmentService) : Prop where
  clears : ∀ t ∈ s.tasks, t.Clears s.tables
  deleted : ∀ r ∈ s.tables.attachments, ∀ m ∈ s.tables.messages, r.attachedTo m.id = true →
    m.deleted = false

/-- What a write deletes is deleted already, or it is what it is about. -/
theorem deleted_onMessage {x : ChatMessage}
    (h : (w.onMessage x).deleted = true) : x.deleted = true ∨
      ∃ m numbers ids, w = .softDeleteMessage m numbers ids ∧ x.id = m.id := by
  cases w with
  | softDeleteMessage m numbers ids =>
    by_cases hid : x.id = m.id
    · exact .inr ⟨m, numbers, ids, rfl, hid⟩
    · simp only [AttachmentWrite.onMessage, if_neg hid] at h
      split at h <;> exact .inl h
  | sendMessage m numbers ids | updateMessageBody m numbers body
  | deleteMessageAttachment =>
    simp only [AttachmentWrite.onMessage] at h
    split at h <;> exact .inl h
  | _ => exact .inl h

include hs

theorem deleted_perform (h : s.Cleared)
    (ht : .commit w ∈ s.tasks) : ∀ r ∈ (s.tables.perform w).attachments,
      ∀ m ∈ (s.tables.perform w).messages, r.attachedTo m.id = true → m.deleted = false := by
  have hf : w.Fits s.tables := hs.fits _ ht
  have hnew : ∀ x ∈ w.newMessages, x.id ∉ s.tables.messages.map fun m => m.id := fun x hx =>
    (hs.drawn.newMessage _ ht _ (mem_map_of_mem hx)).2
  intro r' hr' m' hm' hattached
  obtain ⟨r, hr, -, rfl⟩ := exists_of_mem_attachments_perform hr'
  rcases exists_of_mem_messages_perform hm' with ⟨m, hm, -, rfl⟩ | hmem
  · rw [onMessage_same.1] at hattached
    have hsame : w.onAttachment r = r := by
      refine (onAttachment_attachedTo hattached).resolve_right ?_
      rintro ⟨x, hx, hid⟩
      exact hnew x hx (hid ▸ mem_map_of_mem hm)
    rw [hsame] at hattached
    by_contra hdeleted
    rcases deleted_onMessage (Bool.not_eq_false _ ▸ hdeleted) with hbefore | ⟨x, numbers, ids, rfl, hid⟩
    · exact absurd (h.deleted r hr m hm hattached) (by rw [hbefore]; simp)
    · -- the attachment is deleted with the message
      have hmem : r.id ∈ ids := h.clears _ ht r hr (hid ▸ hattached)
      rw [AttachmentWrite.onAttachment, if_pos hmem] at hsame
      rw [← hsame] at hattached
      exact absurd (of_decide_eq_true hattached).2 (by simp [AttachmentRow.delete])
  · cases w with
    | sendMessage =>
      rw [mem_singleton.mp hmem]
      exact hf.1.user.2.1
    | _ => cases hmem

theorem Cleared.step (h : s.Cleared) (hi : s.tasks[i]? = some t)
    (hfree : ∀ l ∈ s.tables.asks t, s.FreeLock l) : Cleared ((s.effect t).goes i (s.turn t)) := by
  have ht := mem_of_getElem? hi
  refine ⟨fun u hu => ?_, fun r' hr' m' hm' hattached => ?_⟩
  · have hset : ((s.effect t).goes i (s.turn t)).tasks = s.tasks.set i (s.turn t) := by
      show (s.effect t).tasks.set _ _ = _
      rw [tasks_effect]
    rw [hset] at hu
    obtain ⟨j, hj⟩ := getElem?_of_mem hu
    rcases HeldRows.getElem?_set_cases hj with ⟨-, rfl⟩ | ⟨hne, hj'⟩
    · exact clears_turn hs (hs.fits t ht) (h.clears t ht)
    · exact (h.clears u (mem_of_getElem? hj')).spared (hs.spares hi hfree hne hj')
  · change r' ∈ (s.effect t).tables.attachments at hr'
    change m' ∈ (s.effect t).tables.messages at hm'
    rcases tables_effect (s := s) t with heq | ⟨row, rfl, -, heq⟩ | ⟨id, rfl, heq⟩ | ⟨w, rfl, heq⟩
    · rw [heq] at hr' hm'
      exact h.deleted r' hr' m' hm' hattached
    · rw [heq] at hr' hm'
      rcases mem_append.mp hr' with hr' | hr'
      · exact h.deleted r' hr' m' hm' hattached
      · -- a row that is new is of no message
        rw [mem_singleton.mp hr'] at hattached
        have hnone : row.messageId = none := (hs.fits _ ht).2
        cases hnone.symm.trans (of_decide_eq_true hattached).1
    · rw [heq] at hr' hm'
      rcases mem_markUploaded.mp hr' with ⟨r, -, -, rfl⟩ | ⟨hr', -⟩
      · exact absurd (of_decide_eq_true hattached).2 (by simp)
      · exact h.deleted r' hr' m' hm' hattached
    · rw [heq] at hr' hm'
      exact deleted_perform hs h ht r' hr' m' hm' hattached

omit hs

theorem clears_begins (c : AttachmentCall) (d : AttachmentTables) : c.begins.Clears d := by
  cases c with
  | sendMessage | editMessage =>
    simp only [AttachmentCall.begins]
    split <;> trivial
  | _ => trivial

theorem Cleared.act (hs : s.Sound) (h : s.Cleared) (hact : s.act a = some s') : s'.Cleared := by
  cases step_of_act hact with
  | step hi hfree => exact h.step hs hi hfree
  | fail =>
    refine ⟨fun u hu => ?_, h.deleted⟩
    rcases mem_or_eq_of_mem_set hu with hu | rfl
    · exact h.clears u hu
    · exact trivial
  | start c =>
    refine ⟨fun u hu => ?_, h.deleted⟩
    rcases mem_append.mp hu with hu | hu
    · exact h.clears u hu
    · rw [mem_singleton.mp hu]
      exact clears_begins c _
  | log _ hr =>
    refine ⟨fun u hu => ?_, fun r hr m hm hattached => ?_⟩
    · have hclears := h.clears u hu
      cases u with
      | commit w => cases w <;> exact hclears
      | _ => exact hclears
    · rcases mem_append.mp hm with hm | hm
      · exact h.deleted r hr m hm hattached
      · rw [mem_singleton.mp hm]
        rfl
  | _ => exact ⟨h.clears, h.deleted⟩

theorem cleared_of_reachable (hs : system.ReachableBy P s) : s.Cleared := by
  have hboth : s.Sound ∧ s.Cleared := by
    refine hs.invariant (I := fun s => s.Sound ∧ s.Cleared)
      (fun s h => ⟨sound_of_init h, ?_⟩) fun _ _ _ h _ hact => ⟨h.1.act hact, h.2.act h.1 hact⟩
    obtain ⟨-, hattachments, -, -, -, htasks⟩ := h
    refine ⟨?_, ?_⟩
    · rw [htasks]
      exact fun t h => nomatch h
    · rw [hattachments]
      exact nofun
  exact hboth.2

/-! ## What is removed from a message -/

include hs

/-- **A message that is deleted by a step** is deleted by what is written about it, and its root has
one reply less. -/
theorem deleted_of_act (hact : s.act a = some s')
    (hm : m ∈ s.tables.messages) (hm' : m' ∈ s'.tables.messages) (hid : m'.id = m.id)
    (hlive : m.deleted = false) (hdeleted : m'.deleted = true) :
    ∀ root ∈ m.threadRootId, ∀ x ∈ s.tables.messages, ∀ x' ∈ s'.tables.messages, x.id = root →
      x'.id = root → x'.threadReplyCount = x.threadReplyCount - 1 := by
  have hsame : s'.tables.messages = s.tables.messages → False := by
    intro heq
    rw [hs.tables.message_eq (heq ▸ hm') hm hid, hlive] at hdeleted
    cases hdeleted
  cases step_of_act hact with
  | @step i t hi hfree hdone =>
    have ht := mem_of_getElem? hi
    change m' ∈ (s.effect t).tables.messages at hm'
    show ∀ root ∈ m.threadRootId, ∀ x ∈ s.tables.messages, ∀ x' ∈ (s.effect t).tables.messages, _
    change (s.effect t).tables.messages = s.tables.messages → False at hsame
    rcases tables_effect (s := s) t with heq | ⟨row, -, -, heq⟩ | ⟨id, -, heq⟩ | ⟨w, rfl, heq⟩
    · exact (hsame (by rw [heq])).elim
    · exact (hsame (by rw [heq])).elim
    · exact (hsame (by rw [heq])).elim
    · have hnew : ∀ x ∈ w.newMessages, x.id ∉ s.tables.messages.map fun m => m.id := fun x hx =>
        (hs.drawn.newMessage _ ht _ (mem_map_of_mem hx)).2
      -- a message after the write is the one of its id before it, written
      have hwritten : ∀ {x x' : ChatMessage}, x ∈ s.tables.messages →
          x' ∈ (s.tables.perform w).messages → x'.id = x.id → x' = w.onMessage x := by
        intro x x' hx hx' hxid
        rcases exists_of_mem_messages_perform hx' with ⟨x₀, hx₀, -, rfl⟩ | hmem
        · rw [onMessage_same.1] at hxid
          rw [hs.tables.message_eq hx₀ hx hxid]
        · exact absurd (mem_map.mpr ⟨x, hx, hxid.symm⟩) (hnew x' hmem)
      rw [heq] at hm' ⊢
      rw [hwritten hm hm' hid] at hdeleted
      rcases deleted_onMessage hdeleted with hbefore | ⟨m₀, numbers, ids, rfl, hid₀⟩
      · cases hlive.symm.trans hbefore
      · obtain rfl := hs.tables.message_eq hm (hs.fits _ ht).1.1 hid₀
        intro root hroot x hx x' hx' hxid hxid'
        rw [hwritten hx hx' (hxid'.trans hxid.symm), threadReplyCount_onMessage,
          AttachmentWrite.replyChange, hxid, if_pos (Option.mem_def.mp hroot)]
        rfl
  | log =>
    rcases mem_append.mp hm' with hm' | hm'
    · rw [hs.tables.message_eq hm' hm hid, hlive] at hdeleted
      cases hdeleted
    · rw [mem_singleton.mp hm'] at hdeleted
      exact absurd hdeleted (by simp [RoomLedger.systemMessage])
  | _ => exact (hsame rfl).elim

/-- **With the last attachment of a blank message** the message is deleted. -/
theorem deleted_of_removed (hact : s.act a = some s')
    {r' : AttachmentRow} (hm : m ∈ s.tables.messages) (hm' : m' ∈ s'.tables.messages)
    (hid : m'.id = m.id) (hblank : GoText.blank m.body = true) (hr : r ∈ s.tables.attachments)
    (hattached : r.attachedTo m.id = true)
    (hlast : ∀ r₀ ∈ s.tables.attachments, r₀.attachedTo m.id = true → r₀.id = r.id)
    (hr' : r' ∈ s'.tables.attachments) (hrid : r'.id = r.id) (hremoved : r'.status = .deleted) :
    m'.deleted = true := by
  have hstatus : r.status = .attached := (of_decide_eq_true hattached).2
  have hsame : r' ∈ s.tables.attachments → False := by
    intro hmem
    rw [hs.tables.attachment_eq hmem hr hrid, hstatus] at hremoved
    cases hremoved
  cases step_of_act hact with
  | @step i t hi hfree hdone =>
    have ht := mem_of_getElem? hi
    change m' ∈ (s.effect t).tables.messages at hm'
    change r' ∈ (s.effect t).tables.attachments at hr'
    rcases tables_effect (s := s) t with heq | ⟨row, rfl, -, heq⟩ | ⟨id, rfl, heq⟩ | ⟨w, rfl, heq⟩
    · exact (hsame (heq ▸ hr')).elim
    · rw [heq] at hr'
      rcases mem_append.mp hr' with hr' | hr'
      · exact (hsame hr').elim
      · have hpending : row.status = .pending := (hs.fits _ ht).1
        rw [mem_singleton.mp hr', hpending] at hremoved
        cases hremoved
    · rw [heq] at hr'
      rcases mem_markUploaded.mp hr' with ⟨r₀, -, -, rfl⟩ | ⟨hr', -⟩
      · cases hremoved
      · exact (hsame hr').elim
    · have hf : w.Fits s.tables := hs.fits _ ht
      rw [heq] at hm' hr'
      obtain ⟨r₀, hr₀, -, rfl⟩ := exists_of_mem_attachments_perform hr'
      rw [onAttachment_same.1] at hrid
      obtain rfl := hs.tables.attachment_eq hr₀ hr hrid
      have hother : w.onAttachment r₀ ≠ r₀ := by
        intro heq'
        rw [heq', hstatus] at hremoved
        cases hremoved
      have hmine : ∀ {m₀ : ChatMessage}, s.tables.Live m₀ → s.tables.Attached m₀ r₀.id → m₀ = m := by
        intro m₀ hm₀ ha
        exact hs.tables.message_eq hm₀.1 hm
          (AttachmentTables.attachedTo_inj (hs.tables.attached_iff ha hr rfl) hattached)
      cases w with
      | sendMessage _ _ ids =>
        by_cases hmem : r₀.id ∈ ids
        · rw [AttachmentWrite.onAttachment, if_pos hmem] at hremoved
          exact absurd hremoved (by simp [AttachmentRow.attach])
        · exact absurd (if_neg hmem) hother
      | softDeleteMessage _ _ ids =>
        by_cases hmem : r₀.id ∈ ids
        · obtain rfl := hmine hf.1 (hf.2.2 _ hmem)
          rcases exists_of_mem_messages_perform hm' with ⟨x, hx, -, rfl⟩ | hnew
          · rw [onMessage_same.1] at hid
            simp only [AttachmentWrite.onMessage, if_pos hid]
            split <;> rfl
          · cases hnew
        · exact absurd (if_neg hmem) hother
      | deleteMessageAttachment _ _ attachment =>
        by_cases hmem : r₀.id ∈ [attachment]
        · -- the message stays, for it is not blank or has more
          obtain rfl := mem_singleton.mp hmem
          obtain rfl := hmine hf.1 hf.2.2.1
          rcases hf.2.2.2 with hbody | ⟨r₁, hr₁, hattached₁, hne⟩
          · cases hblank.symm.trans hbody
          · exact absurd (hlast r₁ hr₁ hattached₁) hne
        · exact absurd (if_neg hmem) hother
      | _ => exact absurd rfl hother
  | _ => exact (hsame hr').elim

/-! ## One call -/

omit hs

/-- **What one call keeps** holds of it in every later state. -/
theorem task_of_steps {K : AttachmentTask → Prop}
    (hturn : ∀ (s : AttachmentService) t, s.Sound → t ∈ s.tasks → K t → K (s.turn t))
    (hfail : ∀ t, K t → (∀ result, t ≠ .done result) → K (refuse .failed))
    (hs : s.Sound) (hsteps : system.Steps P s s') (hi : s.tasks[i]? = some t) (ht : K t) :
    s'.Sound ∧ ∃ u, s'.tasks[i]? = some u ∧ K u := by
  refine hsteps.preserves (I := fun s => s.Sound ∧ ∃ u, s.tasks[i]? = some u ∧ K u) ?_ ⟨hs, t, hi, ht⟩
  rintro s a s' ⟨hs, t, hi, ht⟩ - hact
  refine ⟨hs.act hact, ?_⟩
  have hlt : i < s.tasks.length := (List.getElem?_eq_some_iff.mp hi).1
  cases step_of_act hact with
  | @step j u hj hfree hdone =>
    show ∃ v, ((s.effect u).tasks.set j (s.turn u))[i]? = some v ∧ K v
    rw [tasks_effect]
    by_cases hne : j = i
    · subst hne
      obtain rfl := Option.some.inj (hi.symm.trans hj)
      exact ⟨_, getElem?_set_self hlt, hturn s t hs (mem_of_getElem? hi) ht⟩
    · exact ⟨t, (getElem?_set_ne hne).trans hi, ht⟩
  | @fail j u hj hdone =>
    show ∃ v, (s.tasks.set j (refuse .failed))[i]? = some v ∧ K v
    by_cases hne : j = i
    · subst hne
      obtain rfl := Option.some.inj (hi.symm.trans hj)
      exact ⟨_, getElem?_set_self hlt, hfail t ht hdone⟩
    · exact ⟨t, (getElem?_set_ne hne).trans hi, ht⟩
  | start c =>
    refine ⟨t, ?_, ht⟩
    show (s.tasks ++ [c.begins])[i]? = some t
    rw [getElem?_append_left hlt]
    exact hi
  | _ => exact ⟨t, hi, ht⟩

/-- A message that is sent for a call. -/
def OfInput (actor room : Ulid) (input : SendMessageInput) (m : ChatMessage) (ids : List Ulid) :
    Prop :=
  m.senderId = actor ∧ m.roomId = room ∧ m.clientMsgId = input.clientMsgId ∧ m.body = input.body ∧
    ids = input.attachmentIds

/-- **A call that sends a message**, and how it may end. -/
def Sends (actor room : Ulid) (input : SendMessageInput) : AttachmentTask → Prop
  | .sendMessage actor' room' input' | .sendThreadReply actor' room' _ input'
  | .allocateSeq actor' room' input' _ => actor' = actor ∧ room' = room ∧ input' = input
  | .attachToMessage m _ ids | .attaching m _ ids _ _ | .commit (.sendMessage m _ ids)
  | .done (.wrote (.sendMessage m _ ids)) => OfInput actor room input m ids
  | .done .returned | .done (.refused _) => True
  | _ => False

theorem sends_turn (hs : s.Sound) (ht : t ∈ s.tasks)
    (h : Sends actor room input t) : Sends actor room input (s.turn t) := by
  cases t with
  | sendMessage =>
    simp only [turn]
    split
    · trivial
    · split <;> exact h
  | sendThreadReply =>
    simp only [turn, invalidThreadRoot]
    split
    · split
      · exact h
      · trivial
    · trivial
  | allocateSeq _ _ _ root =>
    obtain ⟨rfl, rfl, rfl⟩ := h
    simp only [turn]
    split
    · cases root <;> exact ⟨rfl, rfl, rfl, rfl, rfl⟩
    · trivial
  | attaching _ _ _ todo taken =>
    cases todo with
    | nil =>
      simp only [turn]
      split
      · next hlength =>
        -- what was taken is a part of what was asked for, and as long
        have hsub := (hs.fits _ ht).2.2
        rw [append_nil] at hsub
        rw [hsub.eq_of_length hlength]
        exact h
      · trivial
    | cons =>
      simp only [turn]
      split <;> exact h
  | commit w => cases w <;> exact h
  | attachToMessage | done => exact h
  | _ => exact absurd h (by simp [Sends])

/-- **A call that removes an attachment.** -/
def Removes (attachment : Ulid) : AttachmentTask → Prop
  | .lockMessage _ _ id | .deleteMessageAttachment _ id | .checkAlreadyDeleted _ id
  | .countMessageAttachments _ id | .allocateChange _ id
  | .commit (.deleteMessageAttachment _ _ id) => id = attachment
  | .softDeleteMessage _ id | .allocateDelete _ id => id = some attachment
  | .commit (.softDeleteMessage _ _ ids) => ids = [attachment]
  | .done _ => True
  | _ => False

theorem removes_turn (h : Removes attachment t) : Removes attachment (s.turn t) := by
  cases t with
  | lockMessage =>
    simp only [turn]
    repeat' split
    · trivial
    · exact h
    · trivial
  | deleteMessageAttachment =>
    simp only [turn]
    split <;> exact h
  | checkAlreadyDeleted =>
    simp only [turn]
    split <;> trivial
  | countMessageAttachments =>
    simp only [turn]
    split
    · exact congrArg some h
    · exact h
  | allocateChange | softDeleteMessage =>
    simp only [turn]
    split
    · exact h
    · trivial
  | allocateDelete _ id =>
    obtain rfl : id = some attachment := h
    simp only [turn]
    split
    · exact rfl
    · trivial
  | commit | done => trivial
  | _ => exact absurd h (by simp [Removes])

/-! ## The contract -/

include hs

/-- What a call that sends a message writes, it writes when it commits, and then it is done. -/
theorem wrote_of_sends (hi : s.tasks[i]? = some t) (ht : Sends actor room input t)
    (hact : s.act (.step i) = some s') (hne : s'.tables ≠ s.tables) :
    ∃ m numbers, t = .commit (.sendMessage m numbers input.attachmentIds) ∧
      s'.tasks[i]? = some (.done (.wrote (.sendMessage m numbers input.attachmentIds))) ∧
      s'.tables = s.tables.perform (.sendMessage m numbers input.attachmentIds) ∧
      OfInput actor room input m input.attachmentIds := by
  cases step_of_act hact with
  | @step _ u hu hfree hdone =>
    obtain rfl := Option.some.inj (hi.symm.trans hu)
    change (s.effect t).tables ≠ s.tables at hne
    have hlt : i < s.tasks.length := (List.getElem?_eq_some_iff.mp hi).1
    rcases tables_effect (s := s) t with heq | ⟨row, rfl, -, -⟩ | ⟨id, rfl, -⟩ | ⟨w, rfl, heq⟩
    · exact absurd heq hne
    · exact absurd ht (by simp [Sends])
    · exact absurd ht (by simp [Sends])
    · cases w with
      | sendMessage m numbers ids =>
        obtain rfl : ids = input.attachmentIds := ht.2.2.2.2
        exact ⟨m, numbers, rfl, getElem?_set_self hlt, heq, ht⟩
      | _ => exact absurd ht (by simp [Sends])

/-- A message that is sent has the attachments that it was to take, and no others. -/
theorem attachedTo_perform_sendMessage {numbers : RoomRecord} {ids : List Ulid} (ht : .commit (.sendMessage m numbers ids) ∈ s.tasks) :
    (∀ id ∈ ids, ∃ r ∈ (s.tables.perform (.sendMessage m numbers ids)).attachments, r.id = id) ∧
    ∀ r ∈ (s.tables.perform (.sendMessage m numbers ids)).attachments,
      r.attachedTo m.id = true ↔ r.id ∈ ids := by
  have hf : AttachmentWrite.Fits s.tables (.sendMessage m numbers ids) := hs.fits _ ht
  refine ⟨fun id hid => ?_, fun r' hr' => ?_⟩
  · obtain ⟨r, hr, rfl, -⟩ := hf.2 id hid
    exact ⟨_, mem_attachments_perform hr rfl, onAttachment_same.1⟩
  · obtain ⟨r, hr, -, rfl⟩ := exists_of_mem_attachments_perform hr'
    rw [onAttachment_same.1, AttachmentWrite.onAttachment]
    split
    · next hmem => exact ⟨fun _ => hmem, fun _ => decide_eq_true ⟨rfl, rfl⟩⟩
    · next hmem =>
      refine ⟨fun hattached => ?_, fun h => absurd h hmem⟩
      -- what was attached before is of a message that is there
      obtain ⟨x, hx, hid, -⟩ := hs.tables.ofMessage r hr m.id (of_decide_eq_true hattached).1
      exact absurd (mem_map.mpr ⟨x, hx, hid⟩) (hs.drawn.newMessage _ ht _ (.head _)).2

/-- What removes an attachment that is deleted already, or gone, writes nothing. -/
theorem tables_of_removes (hi : s.tasks[i]? = some t)
    (ht : Removes attachment t) (hact : s.act (.step i) = some s')
    (hdeleted : ∀ r ∈ s.tables.attachments, r.id = attachment → r.status = .deleted) :
    s'.tables = s.tables := by
  cases step_of_act hact with
  | @step _ u hu hfree hdone =>
    obtain rfl := Option.some.inj (hi.symm.trans hu)
    have hnot : ∀ {m : ChatMessage}, ¬ s.tables.Attached m attachment := by
      rintro m ⟨r, hr, hid, hattached⟩
      cases (hdeleted r hr hid).symm.trans (of_decide_eq_true hattached).2
    show (s.effect t).tables = s.tables
    rcases tables_effect (s := s) t with heq | ⟨row, rfl, -, -⟩ | ⟨id, rfl, -⟩ | ⟨w, rfl, heq⟩
    · exact heq
    · exact absurd ht (by simp [Removes])
    · exact absurd ht (by simp [Removes])
    · have hf : w.Fits s.tables := hs.fits _ (mem_of_getElem? hi)
      cases w with
      | softDeleteMessage _ _ ids =>
        obtain rfl : ids = [attachment] := ht
        exact absurd (hf.2.2 _ (.head _)) hnot
      | deleteMessageAttachment _ _ id =>
        obtain rfl : id = attachment := ht
        exact absurd hf.2.2.1 hnot
      | _ => exact absurd ht (by simp [Removes])

omit hs

/-- **No message is blank**, and what a message has it has all at once: in every state that is
reached, a message of a user that is not deleted says something or has an attachment, and one that is
deleted has none. A call that sends a message writes nothing, or it writes the message with all the
attachments that were asked for, and ends so. With the last attachment of a blank message the message
is deleted, by the same write; a message that is deleted is one reply less for its root, and a root
counts its replies. And removing an attachment that is deleted already, or gone, writes nothing. -/
theorem no_message_is_blank {s : AttachmentService} (hs : system.Reachable s) :
    (∀ m ∈ s.tables.messages, m.kind = .user → m.deleted = false →
      GoText.blank m.body = false ∨ ∃ r ∈ s.tables.attachments, r.attachedTo m.id = true) ∧
    (∀ m ∈ s.tables.messages, m.deleted = true →
      ∀ r ∈ s.tables.attachments, r.attachedTo m.id = false) ∧
    (∀ i actor room input s₁ s₂,
      s.tasks[i]? = some (AttachmentCall.sendMessage actor room input).begins →
      system.Steps (fun _ _ => True) s s₁ → s₁.act (.step i) = some s₂ → s₂.tables ≠ s₁.tables →
      ∃ m numbers, OfInput actor room input m input.attachmentIds ∧ m ∈ s₂.tables.messages ∧
        (∀ id ∈ input.attachmentIds, ∃ r ∈ s₂.tables.attachments, r.id = id) ∧
        (∀ r ∈ s₂.tables.attachments, r.attachedTo m.id = true ↔ r.id ∈ input.attachmentIds) ∧
        ∀ s₃, system.Steps (fun _ _ => True) s₂ s₃ →
          s₃.tasks[i]? = some (.done (.wrote (.sendMessage m numbers input.attachmentIds)))) ∧
    (∀ a s', s.act a = some s' → ∀ m ∈ s.tables.messages, ∀ m' ∈ s'.tables.messages, m'.id = m.id →
      GoText.blank m.body = true → ∀ r ∈ s.tables.attachments, r.attachedTo m.id = true →
      (∀ r₀ ∈ s.tables.attachments, r₀.attachedTo m.id = true → r₀.id = r.id) →
      ∀ r' ∈ s'.tables.attachments, r'.id = r.id → r'.status = .deleted → m'.deleted = true) ∧
    (∀ a s', s.act a = some s' → ∀ m ∈ s.tables.messages, ∀ m' ∈ s'.tables.messages, m'.id = m.id →
      m.deleted = false → m'.deleted = true → ∀ root ∈ m.threadRootId, ∀ x ∈ s.tables.messages,
      ∀ x' ∈ s'.tables.messages, x.id = root → x'.id = root →
      x'.threadReplyCount = x.threadReplyCount - 1) ∧
    (∀ m ∈ s.tables.messages,
      m.threadReplyCount = (s.tables.messages.countP (ChatMessage.liveReply m.id) : ℤ)) ∧
    ∀ i room message attachment s₁ s₂,
      s.tasks[i]? = some (AttachmentCall.deleteMessageAttachment room message attachment).begins →
      system.Steps (fun _ _ => True) s s₁ → s₁.act (.step i) = some s₂ →
      (∀ r ∈ s₁.tables.attachments, r.id = attachment → r.status = .deleted) →
      s₂.tables = s₁.tables := by
  have hsound := sound_of_reachable hs
  have hcleared := cleared_of_reachable hs
  refine ⟨fun m hm huser hlive => hsound.tables.content m ⟨hm, huser, hlive⟩,
    fun m hm hdeleted r hr => ?_, fun i actor room input s₁ s₂ hi hsteps hact hne => ?_,
    fun a s' hact m hm m' hm' hid hblank r hr hattached hlast r' hr' hrid hremoved =>
      deleted_of_removed hsound hact hm hm' hid hblank hr hattached hlast hr' hrid hremoved,
    fun a s' hact m hm m' hm' hid hlive hdeleted =>
      deleted_of_act hsound hact hm hm' hid hlive hdeleted,
    hsound.tables.replies, fun i room message attachment s₁ s₂ hi hsteps hact hdeleted => ?_⟩
  · rw [Bool.eq_false_iff]
    intro hattached
    exact absurd (hcleared.deleted r hr m hm hattached) (by rw [hdeleted]; simp)
  · have hbegins : Sends actor room input (AttachmentCall.sendMessage actor room input).begins := by
      simp only [AttachmentCall.begins]
      split
      · exact ⟨rfl, rfl, rfl⟩
      · trivial
    obtain ⟨hsound₁, t, ht, hsends⟩ := task_of_steps (fun _ _ hs ht h => sends_turn hs ht h)
      (fun _ _ _ => trivial) hsound hsteps hi hbegins
    obtain ⟨m, numbers, rfl, hdone, htables, hof⟩ := wrote_of_sends hsound₁ ht hsends hact hne
    have hall := attachedTo_perform_sendMessage hsound₁ (mem_of_getElem? ht)
    refine ⟨m, numbers, hof, ?_, ?_, ?_, fun s₃ hsteps₃ => ?_⟩
    · rw [htables, messages_perform]
      exact mem_append_right _ (.head _)
    · rw [htables]
      exact hall.1
    · rw [htables]
      exact hall.2
    · obtain ⟨-, u, hu, rfl⟩ := task_of_steps
        (K := fun t => t = .done (.wrote (.sendMessage m numbers input.attachmentIds)))
        (fun s t _ _ h => by rw [h]; rfl) (fun t h hnot => absurd h (hnot _)) (hsound₁.act hact)
        hsteps₃ hdone rfl
      exact hu
  · obtain ⟨hsound₁, t, ht, hremoves⟩ := task_of_steps (K := Removes attachment)
      (fun _ _ _ _ h => removes_turn h) (fun _ _ _ => trivial) hsound hsteps hi rfl
    exact tables_of_removes hsound₁ ht hremoves hact hdeleted

/-- An image is sent with a body of one space, and the message has it. -/
theorem no_message_is_blank_image : ∃ s, system.Reachable s ∧ ∃ m ∈ s.tables.messages,
    GoText.blank m.body = true ∧ ∃ r ∈ s.tables.attachments, r.attachedTo m.id = true := by
  have hrun : (system.run oneRoom (sent.take 9 ++
      [.start (.sendMessage 2 1 ⟨7, " ", none, false, [10]⟩), .step 2, .step 2, .step 2, .step 2,
        .step 2, .step 2])).any (fun s => s.tables.messages.any fun m =>
          GoText.blank m.body && decide (m.kind = .user ∧ m.deleted = false)) = true := by
    decide +kernel
  obtain ⟨s, hreach, htest⟩ := TransitionSystem.exists_of_run hrun ⟨rfl, rfl, rfl, rfl, rfl, rfl⟩
  obtain ⟨m, hm, htest⟩ := any_eq_true.mp htest
  obtain ⟨hblank, hlive⟩ := Bool.and_eq_true_iff.mp htest
  obtain ⟨huser, hdeleted⟩ := of_decide_eq_true hlive
  rcases (no_message_is_blank hreach).1 m hm huser hdeleted with hbody | hattached
  · cases hblank.symm.trans hbody
  · exact ⟨s, hreach, m, hm, hblank, hattached⟩

end AttachmentService

end Hibari
