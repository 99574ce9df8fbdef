import Hibari.ObjectKeys

/-!
# What becomes of objects

An object may be put as long as a URL for its key is good, and whatever is to remind of the key – its
row, or a note that the object is to be deleted – may go before that. A job deletes rows that were
deleted by a user at once, whatever URLs there are; a URL may be signed long after its row was made;
a batch that fails has deleted objects of rows that it leaves; and what one call has seen of an object
may be of the past when it deletes it. As long as none of that happens (`SafeStore`), no object is
left behind, and none that is in use is deleted (`no_object_orphaned`).
-/

namespace Hibari

open List Function AttachmentWrite

namespace AttachmentTask

variable {d : AttachmentTables}

/-- Whether a call is a batch that has begun. -/
def job : AttachmentTask → Bool
  | lockAttachmentsForCleanup _ | deleteObjects _ _ | commit (.deleteAttachments _)
  | lockDueStorageDeletions _ | deleteDueObjects _ _ | commit (.deleteStorageDeletions _) => true
  | _ => false

variable {t : AttachmentTask} {r : AttachmentRow} {e : StorageDeletion}

theorem lists_of_job (h : t.job = false) : t.swept = [] ∧ t.gone = [] ∧ t.sweptKeys = [] ∧
    t.goneKeys = [] := by
  cases t with
  | deleteObjects | deleteDueObjects => exact absurd h (by simp [job])
  | commit w =>
    cases w with
    | deleteAttachments | deleteStorageDeletions => exact absurd h (by simp [job])
    | _ => exact ⟨rfl, rfl, rfl, rfl⟩
  | _ => exact ⟨rfl, rfl, rfl, rfl⟩

theorem mem_swept_of_gone (h : r ∈ t.gone) : r ∈ t.swept := by
  cases t with
  | deleteObjects => exact mem_append_left _ h
  | commit w =>
    cases w with
    | deleteAttachments => exact h
    | _ => exact nomatch h
  | _ => exact nomatch h

theorem mem_sweptKeys_of_goneKeys (h : e ∈ t.goneKeys) : e ∈ t.sweptKeys := by
  cases t with
  | deleteDueObjects => exact mem_append_left _ h
  | commit w =>
    cases w with
    | deleteStorageDeletions => exact h
    | _ => exact nomatch h
  | _ => exact nomatch h

/-- What a batch has taken is there, and locked. -/
theorem Fits.swept (hf : t.Fits d) (h : r ∈ t.swept) :
    (r ∈ d.attachments ∧ r.status ≠ .attached) ∧ .attachment r.id ∈ t.held := by
  cases t with
  | deleteObjects => exact ⟨hf r h, mem_map.mpr ⟨r, h, rfl⟩⟩
  | commit w =>
    cases w with
    | deleteAttachments => exact ⟨hf r h, mem_map.mpr ⟨r, h, rfl⟩⟩
    | _ => exact nomatch h
  | _ => exact nomatch h

theorem Fits.sweptKeys (hf : t.Fits d) (h : e ∈ t.sweptKeys) : e ∈ d.storageDeletions := by
  cases t with
  | deleteDueObjects => exact hf e h
  | commit w =>
    cases w with
    | deleteStorageDeletions => exact hf e h
    | _ => exact nomatch h
  | _ => exact nomatch h

end AttachmentTask

open AttachmentTask

namespace AttachmentService

variable {s s' : AttachmentService} {a : AttachmentAction} {t u : AttachmentTask} {i : ℕ}

/-! ## A batch goes on -/

theorem job_turn (h : t.job = false) (hattachments : t ≠ .cleanupAttachmentBatch)
    (hdeletions : t ≠ .cleanupStorageDeletionBatch) : (s.turn t).job = false := by
  cases t with
  | cleanupAttachmentBatch => exact absurd rfl hattachments
  | cleanupStorageDeletionBatch => exact absurd rfl hdeletions
  | lockAttachmentsForCleanup now | deleteObjects gone todo | lockDueStorageDeletions now
  | deleteDueObjects => exact absurd h (by simp [AttachmentTask.job])
  | attaching _ _ _ todo => cases todo <;> simp only [turn] <;> split <;> rfl
  | marking _ _ todo =>
    cases todo with
    | nil => rfl | cons =>
      simp only [turn]
      split <;> rfl
  | _ =>
    simp only [turn, refuse, invalidThreadRoot]
    repeat' split
    all_goals rfl

theorem eq_clock_of_turn_lock {now : ℕ} (h : s.turn t = .lockAttachmentsForCleanup now ∨
    s.turn t = .lockDueStorageDeletions now) : now = s.clock := by
  have hjob : (s.turn t).job = true := by
    rcases h with h | h <;> rw [h] <;> rfl
  cases t with
  | cleanupAttachmentBatch =>
    rcases h with h | h
    · simpa [turn, eq_comm] using h
    · exact absurd h (by simp [turn])
  | cleanupStorageDeletionBatch =>
    rcases h with h | h
    · exact absurd h (by simp [turn])
    · simpa [turn, eq_comm] using h
  | deleteObjects _ todo | deleteDueObjects _ todo =>
    rcases h with h | h <;> cases todo <;> exact absurd h (by simp [turn])
  | lockAttachmentsForCleanup | lockDueStorageDeletions | commit =>
    rcases h with h | h <;> exact absurd h (by simp [turn])
  | _ =>
    rw [job_turn rfl (by simp) (by simp)] at hjob
    cases hjob

/-- An attachment that a batch has taken it had taken, or it was due. -/
theorem mem_swept_turn {r : AttachmentRow} (h : r ∈ (s.turn t).swept) :
    r ∈ t.swept ∨ ∃ now, t = .lockAttachmentsForCleanup now ∧ r.due now = true := by
  cases t with
  | lockAttachmentsForCleanup now => exact .inr ⟨now, rfl, (mem_dueAttachments h).2.1⟩
  | deleteObjects gone todo =>
    cases todo with
    | nil =>
      refine .inl ?_
      show r ∈ gone ++ []
      rwa [append_nil]
    | cons r' todo =>
      refine .inl ?_
      show r ∈ gone ++ r' :: todo
      rwa [append_cons]
  | deleteDueObjects _ todo => cases todo <;> exact nomatch h
  | lockDueStorageDeletions now | commit w | cleanupAttachmentBatch
  | cleanupStorageDeletionBatch => exact nomatch h
  | _ =>
    rw [(lists_of_job (job_turn rfl (by simp) (by simp))).1] at h
    exact nomatch h

theorem mem_sweptKeys_turn {e : StorageDeletion} (h : e ∈ (s.turn t).sweptKeys) :
    e ∈ t.sweptKeys ∨ ∃ now, t = .lockDueStorageDeletions now ∧ e.notBefore ≤ now := by
  cases t with
  | lockDueStorageDeletions now => exact .inr ⟨now, rfl, (mem_dueStorageDeletions h).2.1⟩
  | deleteDueObjects gone todo =>
    cases todo with
    | nil =>
      refine .inl ?_
      show e ∈ gone ++ []
      rwa [append_nil]
    | cons e' todo =>
      refine .inl ?_
      show e ∈ gone ++ e' :: todo
      rwa [append_cons]
  | deleteObjects _ todo => cases todo <;> exact nomatch h
  | lockAttachmentsForCleanup now | commit w | cleanupAttachmentBatch
  | cleanupStorageDeletionBatch => exact nomatch h
  | _ =>
    rw [(lists_of_job (job_turn rfl (by simp) (by simp))).2.2.1] at h
    exact nomatch h

/-- An object that a batch has deleted it had deleted, or it does so now. -/
theorem mem_gone_turn {r : AttachmentRow} (h : r ∈ (s.turn t).gone) :
    r ∈ t.gone ∨ ∃ gone todo, t = .deleteObjects gone (r :: todo) := by
  cases t with
  | deleteObjects gone todo =>
    cases todo with
    | nil => exact .inl h
    | cons _ todo =>
      refine (mem_append.mp h).imp id fun h => ⟨gone, todo, ?_⟩
      rw [mem_singleton.mp h]
  | deleteDueObjects _ todo => cases todo <;> exact nomatch h
  | lockAttachmentsForCleanup now | lockDueStorageDeletions now | commit w
  | cleanupAttachmentBatch | cleanupStorageDeletionBatch => exact nomatch h
  | _ =>
    rw [(lists_of_job (job_turn rfl (by simp) (by simp))).2.1] at h
    exact nomatch h

theorem mem_goneKeys_turn {e : StorageDeletion} (h : e ∈ (s.turn t).goneKeys) :
    e ∈ t.goneKeys ∨ ∃ gone todo, t = .deleteDueObjects gone (e :: todo) := by
  cases t with
  | deleteObjects _ todo => cases todo <;> exact nomatch h
  | deleteDueObjects gone todo =>
    cases todo with
    | nil => exact .inl h
    | cons _ todo =>
      refine (mem_append.mp h).imp id fun h => ⟨gone, todo, ?_⟩
      rw [mem_singleton.mp h]
  | lockAttachmentsForCleanup now | lockDueStorageDeletions now | commit w
  | cleanupAttachmentBatch | cleanupStorageDeletionBatch => exact nomatch h
  | _ =>
    rw [(lists_of_job (job_turn rfl (by simp) (by simp))).2.2.2] at h
    exact nomatch h

/-- A batch keeps what it has deleted in mind until it commits. -/
theorem gone_turn {r : AttachmentRow} (h : r ∈ t.gone) :
    r ∈ (s.turn t).gone ∨ ∃ rows, t = .commit (.deleteAttachments rows) := by
  cases t with
  | deleteObjects _ todo =>
    cases todo with
    | nil => exact .inl h
    | cons => exact .inl (mem_append_left _ h)
  | commit w =>
    cases w with
    | deleteAttachments rows => exact .inr ⟨rows, rfl⟩
    | _ => exact nomatch h
  | _ => exact nomatch h

/-! ## Runs in which nothing goes wrong -/

section Conditions

variable (s)

/-- A key has a row, or a note that its object is to be deleted. -/
def Traced (key : ObjectKey) : Prop := (∃ r ∈ s.tables.attachments, r.objectKey = key) ∨
  ∃ e ∈ s.tables.storageDeletions, e.objectKey = key

/-- The object of an attachment was found, and was not to be deleted since. -/
def Found (r : AttachmentRow) : Prop := r.status = .uploaded ∨ r.status = .attached ∨
  r.status = .pending ∧ .markAttachmentUploaded r.id ∈ s.tasks

/-- **What is to remind of a key stays** until some time: no row of it is swept before, and no note
of it, be it in the table or in a call that is about to write it. -/
structure Reminded (key : ObjectKey) (time : ℕ) : Prop where
  row : ∀ r ∈ s.tables.attachments, r.objectKey = key → time ≤ r.createdAt + attachmentRetention
  note : ∀ e ∈ s.tables.storageDeletions, e.objectKey = key → time ≤ e.notBefore
  written : ∀ t ∈ s.tasks, ∀ e ∈ t.deletions, e.objectKey = key → time ≤ e.notBefore

/-- When a step of a call is safe. -/
def SafeTurn : AttachmentTask → Prop
  -- the key is not forgotten before the URL expires
  | .presignPut key => s.Traced key ∧ s.Reminded key (s.clock + uploadURLTTL)
  -- what a user deleted may not be put again
  | .deleteObjects _ (r :: _) => r.status = .deleted →
    ∀ url ∈ s.urls, url.key = r.objectKey → url.expiresAt ≤ s.clock
  -- nobody has found an object there since
  | .deleteMismatched key => ∀ r ∈ s.tables.attachments, r.objectKey = key → ¬ s.Found r
  | _ => True

/-- **Steps that are safe.** A batch that fails has deleted no object that was found. -/
def SafeStore : AttachmentAction → Prop
  | .step i => ∀ t ∈ s.tasks[i]?, s.SafeTurn t
  | .fail i => ∀ t ∈ s.tasks[i]?, ∀ r ∈ t.gone, ¬ s.Found r
  | _ => True

end Conditions

instance (key : ObjectKey) : Decidable (s.Traced key) :=
  inferInstanceAs (Decidable (_ ∨ _))

instance (r : AttachmentRow) : Decidable (s.Found r) :=
  inferInstanceAs (Decidable (_ ∨ _))

instance (key : ObjectKey) (time : ℕ) : Decidable (s.Reminded key time) :=
  decidable_of_iff ((∀ r ∈ s.tables.attachments, r.objectKey = key →
      time ≤ r.createdAt + attachmentRetention) ∧
    (∀ e ∈ s.tables.storageDeletions, e.objectKey = key → time ≤ e.notBefore) ∧
    ∀ t ∈ s.tasks, ∀ e ∈ t.deletions, e.objectKey = key → time ≤ e.notBefore)
    ⟨fun h => ⟨h.1, h.2.1, h.2.2⟩, fun h => ⟨h.row, h.note, h.written⟩⟩

instance (t : AttachmentTask) : Decidable (s.SafeTurn t) :=
  match t with
  | .presignPut _ => inferInstanceAs (Decidable (_ ∧ _))
  | .deleteObjects _ (_ :: _) => inferInstanceAs (Decidable (_ → _))
  | .deleteMismatched key => inferInstanceAs (Decidable (∀ r ∈ s.tables.attachments, _ → _))
  | .deleteObjects _ [] | .sendMessage _ _ _ | .sendThreadReply _ _ _ _ | .allocateSeq _ _ _ _
  | .attachToMessage _ _ _ | .attaching _ _ _ _ _ | .editMessage _ _ _ _ | .lockEdited _ _ _ _
  | .allocateEdit _ _ | .deleteMessage _ _ | .lockMessage _ _ _ | .deleteMessageAttachment _ _
  | .checkAlreadyDeleted _ _ | .countMessageAttachments _ _ | .allocateChange _ _
  | .softDeleteMessage _ _ | .allocateDelete _ _ | .markMessageAttachmentsDeleted _ _
  | .marking _ _ _ _ | .createAttachment _ _ _ _ | .insertAttachment _ | .completeAttachment _ _
  | .headObject _ | .markAttachmentUploaded _ | .rereadAttachment _ | .deleteRoom _
  | .enqueueRoomStorageDeletions _ | .cascade _ _ | .cleanupAttachmentBatch
  | .lockAttachmentsForCleanup _ | .cleanupStorageDeletionBatch | .lockDueStorageDeletions _
  | .deleteDueObjects _ _ | .commit _ | .done _ => isTrue trivial

instance (a : AttachmentAction) : Decidable (s.SafeStore a) :=
  match a with
  | .step i => inferInstanceAs (Decidable (∀ t ∈ s.tasks[i]?, _))
  | .fail i => inferInstanceAs (Decidable (∀ t ∈ s.tasks[i]?, ∀ r ∈ t.gone, _))
  | .start _ | .tick | .put _ _ | .log _ _ _ | .archive _ _ => isTrue trivial

/-! ## What is kept then -/

/-- **What runs keep in which nothing goes wrong.** -/
structure Kept (s : AttachmentService) : Prop where
  fresh : ∀ url ∈ s.urls, url.expiresAt ≤ s.clock + uploadURLTTL
  reminded : ∀ url ∈ s.urls, s.Reminded url.key url.expiresAt
  valid : ∀ url ∈ s.urls, s.clock < url.expiresAt → s.Traced url.key
  traced : ∀ key, (s.store key).isSome → s.Traced key
  /-- The clock has passed what a batch read from it. -/
  began : ∀ now, .lockAttachmentsForCleanup now ∈ s.tasks ∨ .lockDueStorageDeletions now ∈ s.tasks →
    now ≤ s.clock
  swept : ∀ t ∈ s.tasks, ∀ r ∈ t.swept,
    r.status = .deleted ∨ r.createdAt + attachmentRetention < s.clock
  sweptKeys : ∀ t ∈ s.tasks, ∀ e ∈ t.sweptKeys, e.notBefore ≤ s.clock
  gone : ∀ t ∈ s.tasks, ∀ r ∈ t.gone, s.store r.objectKey = none ∧
    ∀ url ∈ s.urls, url.key = r.objectKey → url.expiresAt ≤ s.clock
  goneKeys : ∀ t ∈ s.tasks, ∀ e ∈ t.goneKeys, s.store e.objectKey = none
  found : ∀ r ∈ s.tables.attachments, s.Found r →
    (s.store r.objectKey).isSome ∨ ∃ t ∈ s.tasks, r ∈ t.gone

theorem Sound.eq_of_objectKey {r r' : AttachmentRow} (hs : s.Sound) (hr : r ∈ s.tables.attachments)
    (hr' : r' ∈ s.tables.attachments) (h : r.objectKey = r'.objectKey) : r = r' :=
  hs.tables.attachment_eq hr hr' (congrArg ObjectKey.attachmentId h)

/-- A key that is noted has no row any more. -/
theorem Sound.objectKey_ne {r : AttachmentRow} {e : StorageDeletion} (hs : s.Sound)
    (hr : r ∈ s.tables.attachments) (he : e ∈ s.tables.storageDeletions) :
    r.objectKey ≠ e.objectKey := by
  intro heq
  have hroom : r.roomId = e.objectKey.roomId := congrArg ObjectKey.roomId heq
  have hsome := hs.tables.ofRoom r hr
  rw [hroom, hs.tables.gone e he] at hsome
  exact nomatch hsome

/-- **A key is forgotten** only by the batch that has deleted its object. -/
theorem Traced.effect {key : ObjectKey} (hs : s.Sound) (hf : t.Fits s.tables) (h : s.Traced key) :
    (s.effect t).Traced key ∨ (∃ r ∈ t.gone, r.objectKey = key) ∨
      ∃ e ∈ t.goneKeys, e.objectKey = key := by
  have hsame : ∀ {rows : List AttachmentRow},
      (∀ r ∈ s.tables.attachments, ∃ r' ∈ rows, r'.objectKey = r.objectKey) →
      (s.effect t).tables.attachments = rows →
      (s.effect t).tables.storageDeletions = s.tables.storageDeletions →
      (s.effect t).Traced key := by
    intro rows hrows heq heq'
    rcases h with ⟨r, hr, rfl⟩ | ⟨e, he, rfl⟩
    · obtain ⟨r', hr', hkey⟩ := hrows r hr
      exact .inl ⟨r', by rw [heq]; exact hr', hkey⟩
    · exact .inr ⟨e, by rw [heq']; exact he, rfl⟩
  rcases tables_effect (s := s) t with heq | ⟨row, -, -, heq⟩ | ⟨id, -, heq⟩ | ⟨w, rfl, heq⟩
  · exact .inl (hsame (fun r hr => ⟨r, hr, rfl⟩) (by rw [heq]) (by rw [heq]))
  · exact .inl (hsame (fun r hr => ⟨r, mem_append_left _ hr, rfl⟩) (by rw [heq]) (by rw [heq]))
  · refine .inl (hsame (fun r hr => ?_) (by rw [heq]) (by rw [heq]))
    refine ⟨_, mem_map_of_mem hr, ?_⟩
    split <;> rfl
  · have hrow : ∀ {r : AttachmentRow}, r ∈ s.tables.attachments → w.keepsAttachment r = true →
        ∃ r' ∈ (s.tables.perform w).attachments, r'.objectKey = r.objectKey := by
      intro r hr hk
      obtain ⟨hid, hroom, -⟩ := onAttachment_same (w := w) (r := r)
      refine ⟨_, mem_attachments_perform hr hk, ?_⟩
      rw [AttachmentRow.objectKey, AttachmentRow.objectKey, hid, hroom]
    cases w with
    | deleteRoom room =>
      refine .inl ?_
      rcases h with ⟨r, hr, rfl⟩ | ⟨e, he, rfl⟩
      · by_cases hroom : r.roomId = room
        · -- the key was copied
          obtain ⟨e, he, hkey⟩ := mem_map.mp (hf.2.2.1 r hr hroom).2
          by_cases hthere : e.objectKey ∈ s.tables.storageDeletions.map StorageDeletion.objectKey
          · obtain ⟨e', he', hkey'⟩ := mem_map.mp hthere
            exact .inr ⟨e', mem_append_left _ he', hkey'.trans hkey⟩
          · exact .inr ⟨e, mem_append_right _ (mem_filter.mpr ⟨he, decide_eq_true hthere⟩), hkey⟩
        · exact .inl (hrow hr (decide_eq_true hroom))
      · exact .inr ⟨e, mem_append_left _ he, rfl⟩
    | deleteAttachments rows =>
      rcases h with ⟨r, hr, rfl⟩ | ⟨e, he, rfl⟩
      · by_cases hk : r.id ∈ rows.map AttachmentRow.id
        · obtain ⟨r', hr', hid⟩ := mem_map.mp hk
          exact .inr (.inl ⟨r', hr', by rw [hs.tables.attachment_eq (hf r' hr').1 hr hid]⟩)
        · exact .inl (.inl (hrow hr (decide_eq_true hk)))
      · exact .inl (.inr ⟨e, he, rfl⟩)
    | deleteStorageDeletions rows =>
      rcases h with ⟨r, hr, rfl⟩ | ⟨e, he, rfl⟩
      · exact .inl (.inl (hrow hr rfl))
      · by_cases hk : e.objectKey ∈ rows.map StorageDeletion.objectKey
        · obtain ⟨e', he', hkey⟩ := mem_map.mp hk
          exact .inr (.inr ⟨e', he', hkey⟩)
        · exact .inl (.inr ⟨e, mem_filter.mpr ⟨he, decide_eq_true hk⟩, rfl⟩)
    | sendMessage m =>
      refine .inl (hsame (fun r hr => hrow hr rfl) (by rw [heq]) ?_)
      rw [heq]
      cases hroot : m.threadRootId <;> simp only [AttachmentTables.perform, hroot] <;> rfl
    | softDeleteMessage m =>
      refine .inl (hsame (fun r hr => hrow hr rfl) (by rw [heq]) ?_)
      rw [heq]
      cases hroot : m.threadRootId <;> simp only [AttachmentTables.perform, hroot] <;> rfl
    | updateMessageBody =>
      exact .inl (hsame (fun r hr => hrow hr rfl) (by rw [heq]) (by rw [heq]; rfl))
    | deleteMessageAttachment =>
      exact .inl (hsame (fun r hr => hrow hr rfl) (by rw [heq]) (by rw [heq]; rfl))

section Step

theorem Kept.fresh_step (h : s.Kept) : ∀ url ∈ (s.effect t).urls,
    url.expiresAt ≤ (s.effect t).clock + uploadURLTTL := by
  intro url hurl
  rw [clock_effect]
  rcases mem_urls_effect hurl with hurl | ⟨key, -, rfl⟩
  · exact h.fresh url hurl
  · exact le_refl _

variable (hs : s.Sound)
include hs

theorem Kept.reminded_step (hk : s.Known) (h : s.Kept) (hi : s.tasks[i]? = some t)
    (hsafe : s.SafeTurn t) : ∀ url ∈ (s.effect t).urls,
      Reminded ((s.effect t).goes i (s.turn t)) url.key url.expiresAt := by
  have ht := mem_of_getElem? hi
  intro url hurl
  have hbefore : s.Reminded url.key url.expiresAt ∧ url.expiresAt ≤ s.clock + uploadURLTTL ∧
      ∀ row, t = .insertAttachment row → row.objectKey ≠ url.key := by
    rcases mem_urls_effect hurl with hthere | ⟨key, rfl, rfl⟩
    · refine ⟨h.reminded url hthere, h.fresh url hthere, ?_⟩
      rintro row rfl hkey
      exact (hk.unsigned _ ht row.id (.head _)).urls url hthere
        (congrArg ObjectKey.attachmentId hkey.symm)
    · exact ⟨hsafe.2, le_refl _, fun row hrow => nomatch hrow⟩
  obtain ⟨hreminded, hfresh, hnew⟩ := hbefore
  refine ⟨fun r hr hkey => ?_, fun e he hkey => ?_, fun u hu e he hkey => ?_⟩
  · rcases exists_of_mem_attachments_effect hr with rfl | ⟨r₀, hr₀, -, hkey₀, hcreated⟩
    · exact absurd hkey (hnew r rfl)
    · rw [← hcreated]
      exact hreminded.row r₀ hr₀ (hkey₀.trans hkey)
  · rcases mem_storageDeletions_effect he with he | he
    · exact hreminded.note e he hkey
    · exact hreminded.written t ht e he hkey
  · rcases mem_tasks_step hu with rfl | hu
    · rcases mem_deletions_turn he with he | ⟨hnot, -⟩
      · exact hreminded.written t ht e he hkey
      · rw [hnot]
        exact hfresh
    · exact hreminded.written u hu e he hkey

theorem Kept.valid_step (h : s.Kept) (hi : s.tasks[i]? = some t)
    (hsafe : s.SafeTurn t) : ∀ url ∈ (s.effect t).urls, (s.effect t).clock < url.expiresAt →
      (s.effect t).Traced url.key := by
  have ht := mem_of_getElem? hi
  intro url hurl hvalid
  rw [clock_effect] at hvalid
  have htraced : s.Traced url.key := by
    rcases mem_urls_effect hurl with hurl | ⟨key, rfl, rfl⟩
    · exact h.valid url hurl hvalid
    · exact hsafe.1
  have hold : ∀ {url : PresignedPut}, url ∈ (s.effect t).urls → (∀ key, t ≠ .presignPut key) →
      url ∈ s.urls := by
    intro url hurl hne
    rcases mem_urls_effect hurl with hurl | ⟨key, rfl, -⟩
    · exact hurl
    · exact absurd rfl (hne key)
  rcases htraced.effect hs (hs.fits t ht) with htraced | ⟨r, hr, hkey⟩ | ⟨e, he, hkey⟩
  · exact htraced
  · -- a URL of what was swept has expired
    have hmem := hold hurl fun key heq => by
      rw [heq] at hr
      exact nomatch hr
    exact absurd ((h.gone t ht r hr).2 url hmem hkey.symm) hvalid.not_ge
  · have hmem := hold hurl fun key heq => by
      rw [heq] at he
      exact nomatch he
    have hswept := mem_sweptKeys_of_goneKeys he
    have hlate := (h.reminded url hmem).note e ((hs.fits t ht).sweptKeys hswept) hkey
    exact absurd (hlate.trans (h.sweptKeys t ht e hswept)) hvalid.not_ge

theorem Kept.traced_step (h : s.Kept) (hi : s.tasks[i]? = some t) :
    ∀ key, ((s.effect t).store key).isSome → (s.effect t).Traced key := by
  have ht := mem_of_getElem? hi
  intro key hsome
  have hthere : (s.store key).isSome := by
    cases hstore : s.store key with
    | none =>
      rw [store_of_effect hstore] at hsome
      exact nomatch hsome
    | some => rfl
  rcases (h.traced key hthere).effect hs (hs.fits t ht) with htraced | ⟨r, hr, hkey⟩ | ⟨e, he, hkey⟩
  · exact htraced
  · rw [← hkey, (h.gone t ht r hr).1] at hthere
    exact nomatch hthere
  · rw [← hkey, h.goneKeys t ht e he] at hthere
    exact nomatch hthere

omit hs

theorem Kept.began_step (h : s.Kept) : ∀ now,
    .lockAttachmentsForCleanup now ∈ ((s.effect t).goes i (s.turn t)).tasks ∨
      .lockDueStorageDeletions now ∈ ((s.effect t).goes i (s.turn t)).tasks →
    now ≤ (s.effect t).clock := by
  intro now hnow
  rw [clock_effect]
  rcases hnow with hnow | hnow
  · rcases mem_tasks_step hnow with heq | hnow
    · exact (eq_clock_of_turn_lock (.inl heq.symm)).le
    · exact h.began now (.inl hnow)
  · rcases mem_tasks_step hnow with heq | hnow
    · exact (eq_clock_of_turn_lock (.inr heq.symm)).le
    · exact h.began now (.inr hnow)

theorem Kept.swept_step (h : s.Kept) (hi : s.tasks[i]? = some t) :
    ∀ u ∈ ((s.effect t).goes i (s.turn t)).tasks, ∀ r ∈ u.swept,
      r.status = .deleted ∨ r.createdAt + attachmentRetention < (s.effect t).clock := by
  have ht := mem_of_getElem? hi
  intro u hu r hr
  rw [clock_effect]
  rcases mem_tasks_step hu with rfl | hu
  · rcases mem_swept_turn hr with hr | ⟨now, rfl, hdue⟩
    · exact h.swept t ht r hr
    · exact (of_decide_eq_true hdue).2.imp_right fun hlt => hlt.trans_le (h.began now (.inl ht))
  · exact h.swept u hu r hr

theorem Kept.sweptKeys_step (h : s.Kept) (hi : s.tasks[i]? = some t) :
    ∀ u ∈ ((s.effect t).goes i (s.turn t)).tasks, ∀ e ∈ u.sweptKeys,
      e.notBefore ≤ (s.effect t).clock := by
  have ht := mem_of_getElem? hi
  intro u hu e he
  rw [clock_effect]
  rcases mem_tasks_step hu with rfl | hu
  · rcases mem_sweptKeys_turn he with he | ⟨now, rfl, hle⟩
    · exact h.sweptKeys t ht e he
    · exact hle.trans (h.began now (.inr ht))
  · exact h.sweptKeys u hu e he

theorem Kept.gone_step (hs : s.Sound) (hk : s.Known) (h : s.Kept) (hi : s.tasks[i]? = some t)
    (hsafe : s.SafeTurn t) : ∀ u ∈ ((s.effect t).goes i (s.turn t)).tasks, ∀ r ∈ u.gone,
      (s.effect t).store r.objectKey = none ∧ ∀ url ∈ (s.effect t).urls,
        url.key = r.objectKey → url.expiresAt ≤ (s.effect t).clock := by
  have ht := mem_of_getElem? hi
  -- what was gone before is not put again
  have hbefore : ∀ u ∈ s.tasks, ∀ r ∈ u.gone, (s.effect t).store r.objectKey = none ∧
      ∀ url ∈ (s.effect t).urls, url.key = r.objectKey → url.expiresAt ≤ (s.effect t).clock := by
    intro u hu r hr
    obtain ⟨hstore, hurls⟩ := h.gone u hu r hr
    refine ⟨store_of_effect hstore, fun url hurl hkey => ?_⟩
    rw [clock_effect]
    rcases mem_urls_effect hurl with hurl | ⟨key, rfl, rfl⟩
    · exact hurls url hurl hkey
    · obtain ⟨⟨hmem, -⟩, -⟩ := (hs.fits u hu).swept (mem_swept_of_gone hr)
      have hlate := hsafe.2.row r hmem hkey.symm
      have hpending := (hk.unsigned _ ht key.attachmentId (.head _)).row r hmem
        (congrArg ObjectKey.attachmentId hkey.symm)
      rcases h.swept u hu r (mem_swept_of_gone hr) with hdeleted | hold
      · cases hpending.symm.trans hdeleted
      · exact absurd (hlate.trans_lt hold) (by simp)
  intro u hu r hr
  rcases mem_tasks_step hu with rfl | hu
  · rcases mem_gone_turn hr with hr | ⟨gone, todo, rfl⟩
    · exact hbefore t ht r hr
    · refine ⟨update_self _ _ _, fun url hurl hkey => ?_⟩
      have hmem : r ∈ (AttachmentTask.deleteObjects gone (r :: todo)).swept :=
        mem_append_right _ (.head _)
      rcases h.swept _ ht r hmem with hdeleted | hold
      · exact hsafe hdeleted url hurl hkey
      · have hlate := (h.reminded url hurl).row r ((hs.fits _ ht).swept hmem).1.1 hkey.symm
        exact (hlate.trans_lt hold).le
  · exact hbefore u hu r hr

theorem Kept.goneKeys_step (h : s.Kept) (hi : s.tasks[i]? = some t) :
    ∀ u ∈ ((s.effect t).goes i (s.turn t)).tasks, ∀ e ∈ u.goneKeys,
      (s.effect t).store e.objectKey = none := by
  intro u hu e he
  rcases mem_tasks_step hu with rfl | hu
  · rcases mem_goneKeys_turn he with he | ⟨gone, todo, rfl⟩
    · exact store_of_effect (h.goneKeys t (mem_of_getElem? hi) e he)
    · exact update_self _ _ _
  · exact store_of_effect (h.goneKeys u hu e he)

/-- An attachment that was not written is found by who has found it, or was found. -/
theorem found_of_same (hk : s.Known) (hi : s.tasks[i]? = some t) {r : AttachmentRow}
    (hr : r ∈ s.tables.attachments) (h : Found ((s.effect t).goes i (s.turn t)) r) :
    (∃ row, t = .headObject row ∧ (s.store r.objectKey).isSome) ∨ s.Found r := by
  rcases h with huploaded | hattached | ⟨hpending, hmark⟩
  · exact .inr (.inl huploaded)
  · exact .inr (.inr (.inl hattached))
  · rcases mem_tasks_step hmark with heq | hmark
    · obtain ⟨row, rfl, hid, hsome⟩ := eq_of_turn_markAttachmentUploaded heq.symm
      rw [← (hk.headed row (mem_of_getElem? hi)).2.2 r hr hid.symm] at hsome
      exact .inl ⟨row, rfl, hsome⟩
    · exact .inr (.inr (.inr ⟨hpending, hmark⟩))

include hs

/-- **An attachment that is found after a step** was found before it, or its object is there. -/
theorem exists_of_found_step (hk : s.Known) (hi : s.tasks[i]? = some t)
    {r' : AttachmentRow} (hr' : r' ∈ (s.effect t).tables.attachments)
    (h : Found ((s.effect t).goes i (s.turn t)) r') :
    (∃ row, t = .headObject row ∧ (s.store r'.objectKey).isSome) ∨
      ∃ r ∈ s.tables.attachments, s.Found r ∧ r.id = r'.id ∧ r.objectKey = r'.objectKey := by
  have ht := mem_of_getElem? hi
  have hsame : r' ∈ s.tables.attachments →
      (∃ row, t = .headObject row ∧ (s.store r'.objectKey).isSome) ∨
        ∃ r ∈ s.tables.attachments, s.Found r ∧ r.id = r'.id ∧ r.objectKey = r'.objectKey :=
    fun hr => (found_of_same hk hi hr h).imp_right fun hfound => ⟨r', hr, hfound, rfl, rfl⟩
  rcases tables_effect (s := s) t with heq | ⟨row, rfl, -, heq⟩ | ⟨id, rfl, heq⟩ | ⟨w, rfl, heq⟩
  · exact hsame (heq ▸ hr')
  · rw [heq] at hr'
    rcases mem_append.mp hr' with hr | hr
    · exact hsame hr
    · -- nobody has found the object of a row that is new
      obtain rfl := mem_singleton.mp hr
      have hpending : r'.status = .pending := (hs.fits _ ht).1
      rcases h with huploaded | hattached | ⟨-, hmark⟩
      · cases hpending.symm.trans huploaded
      · cases hpending.symm.trans hattached
      · rcases mem_tasks_step hmark with heq' | hmark
        · obtain ⟨row, hrow, -⟩ := eq_of_turn_markAttachmentUploaded heq'.symm
          exact nomatch hrow
        · exact absurd hmark (hk.unsigned _ ht _ (.head _)).found
  · rw [heq] at hr'
    rcases mem_markUploaded.mp hr' with ⟨r, hr, ⟨rfl, hpending⟩, rfl⟩ | ⟨hr, -⟩
    · exact .inr ⟨r, hr, .inr (.inr ⟨hpending, ht⟩), rfl, rfl⟩
    · exact hsame hr
  · rw [heq] at hr'
    obtain ⟨r, hr, -, rfl⟩ := exists_of_mem_attachments_perform hr'
    obtain ⟨hid, hroom, -⟩ := onAttachment_same (w := w) (r := r)
    have hkey : r.objectKey = (w.onAttachment r).objectKey := by
      rw [AttachmentRow.objectKey, AttachmentRow.objectKey, hid, hroom]
    have hdeleted : ∀ {r : AttachmentRow}, ¬ Found ((s.effect (.commit w)).goes i
        (s.turn (.commit w))) r.delete := by
      rintro r (hstatus | hstatus | ⟨hstatus, -⟩) <;>
        exact absurd hstatus (by simp [AttachmentRow.delete])
    cases w with
    | sendMessage _ _ ids =>
      by_cases hmem : r.id ∈ ids
      · obtain ⟨r₀, hr₀, hid₀, hattachable⟩ := (hs.fits _ ht).2 _ hmem
        obtain rfl := hs.tables.attachment_eq hr₀ hr hid₀
        exact .inr ⟨r₀, hr, .inl (of_decide_eq_true hattachable).2.2, hid.symm, hkey⟩
      · exact hsame (by rwa [AttachmentWrite.onAttachment, if_neg hmem])
    | softDeleteMessage _ _ ids =>
      by_cases hmem : r.id ∈ ids
      · rw [AttachmentWrite.onAttachment, if_pos hmem] at h
        exact absurd h hdeleted
      · exact hsame (by rwa [AttachmentWrite.onAttachment, if_neg hmem])
    | deleteMessageAttachment _ _ attachment =>
      by_cases hmem : r.id ∈ [attachment]
      · rw [AttachmentWrite.onAttachment, if_pos hmem] at h
        exact absurd h hdeleted
      · exact hsame (by rwa [AttachmentWrite.onAttachment, if_neg hmem])
    | _ => exact hsame hr

/-- **What a batch has deleted the object of stays** as it is until its row goes with it. -/
theorem eq_of_gone_step (hi : s.tasks[i]? = some t)
    (hfree : ∀ l ∈ s.tables.asks t, s.FreeLock l) {r r' : AttachmentRow} (hu : u ∈ s.tasks)
    (hr : r ∈ u.gone) (hr' : r' ∈ (s.effect t).tables.attachments) (hid : r.id = r'.id) :
    r' = r ∧ ∃ u ∈ ((s.effect t).goes i (s.turn t)).tasks, r ∈ u.gone := by
  obtain ⟨⟨hmem, -⟩, hlock⟩ := (hs.fits u hu).swept (mem_swept_of_gone hr)
  have hset : ((s.effect t).goes i (s.turn t)).tasks = s.tasks.set i (s.turn t) := by
    show (s.effect t).tasks.set _ _ = _
    rw [tasks_effect]
  rw [hset]
  obtain ⟨j, hj⟩ := getElem?_of_mem hu
  by_cases hne : j = i
  · subst hne
    obtain rfl := Option.some.inj (hi.symm.trans hj)
    rcases gone_turn (s := s) hr with hturn | ⟨rows, rfl⟩
    · refine ⟨?_, _, mem_set (List.getElem?_eq_some_iff.mp hi).1 _, hturn⟩
      have htables : (s.effect t).tables = s.tables := by
        cases t with
        | deleteObjects _ todo => cases todo <;> rfl
        | commit => exact nomatch hturn
        | _ => exact nomatch hr
      exact hs.tables.attachment_eq (htables ▸ hr') hmem hid.symm
    · change r' ∈ (s.tables.perform (.deleteAttachments rows)).attachments at hr'
      refine absurd (mem_map.mpr ⟨r, hr, hid⟩) ?_
      exact of_decide_eq_true (mem_filter.mp hr').2
  · refine ⟨(hs.tables_step hi).attachment_eq hr' ?_ hid.symm, u, ?_, hr⟩
    · exact (hs.spares hi hfree hne hj).attachment r hmem hlock
    · exact mem_of_getElem? ((getElem?_set_ne (Ne.symm hne)).trans hj)

theorem Kept.found_step (hk : s.Known) (h : s.Kept) (hi : s.tasks[i]? = some t)
    (hfree : ∀ l ∈ s.tables.asks t, s.FreeLock l) (hsafe : s.SafeTurn t) :
    ∀ r ∈ (s.effect t).tables.attachments, Found ((s.effect t).goes i (s.turn t)) r →
      ((s.effect t).store r.objectKey).isSome ∨
        ∃ u ∈ ((s.effect t).goes i (s.turn t)).tasks, r ∈ u.gone := by
  have ht := mem_of_getElem? hi
  intro r' hr' hfound
  rcases exists_of_found_step hs hk hi hr' hfound with ⟨row, rfl, hsome⟩ | ⟨r, hr, hfound₀, hid, hkey⟩
  · exact .inl hsome
  · rcases h.found r hr hfound₀ with hsome | ⟨u, hu, hgone⟩
    · rcases store_effect (s := s) t with heq | ⟨key, heq, hwho⟩
      · rw [heq, ← hkey]
        exact .inl hsome
      · by_cases hsame : r.objectKey = key
        · -- an object that is deleted now: of a row that a batch has, or it was nobody's
          rcases hwho with rfl | ⟨gone, r₀, todo, rfl, rfl⟩ | ⟨gone, e, todo, rfl, rfl⟩
          · exact absurd hfound₀ (hsafe r hr hsame)
          · have hmem₀ : r₀ ∈ (AttachmentTask.deleteObjects gone (r₀ :: todo)).swept :=
              mem_append_right _ (.head _)
            have hthere := ((hs.fits _ ht).swept hmem₀).1.1
            obtain rfl := hs.eq_of_objectKey hr hthere hsame
            obtain rfl := hs.tables.attachment_eq hr' hr hid.symm
            exact .inr ⟨_, mem_set (List.getElem?_eq_some_iff.mp hi).1 _,
              mem_append_right _ (.head _)⟩
          · have hmem₀ : e ∈ (AttachmentTask.deleteDueObjects gone (e :: todo)).sweptKeys :=
              mem_append_right _ (.head _)
            exact absurd hsame (hs.objectKey_ne hr ((hs.fits _ ht).sweptKeys hmem₀))
        · rw [heq, ← hkey, update_of_ne hsame]
          exact .inl hsome
    · obtain ⟨rfl, hstill⟩ := eq_of_gone_step hs hi hfree hu hgone hr' hid
      exact .inr hstill

theorem Kept.step (hk : s.Known) (h : s.Kept) (hi : s.tasks[i]? = some t)
    (hfree : ∀ l ∈ s.tables.asks t, s.FreeLock l) (hsafe : s.SafeTurn t) :
    Kept ((s.effect t).goes i (s.turn t)) where
  fresh := h.fresh_step
  reminded := h.reminded_step hs hk hi hsafe
  valid := h.valid_step hs hi hsafe
  traced := h.traced_step hs hi
  began := h.began_step
  swept := h.swept_step hi
  sweptKeys := h.sweptKeys_step hi
  gone := h.gone_step hs hk hi hsafe
  goneKeys := h.goneKeys_step hi
  found := h.found_step hs hk hi hfree hsafe

end Step

variable {d : AttachmentTables}

/-! ## Every run in which nothing goes wrong -/

/-- What is kept when calls end or begin, as long as no batch ends that has deleted what was found. -/
theorem Kept.of_tasks {tasks : List AttachmentTask} (h : s.Kept)
    (htasks : ∀ t ∈ tasks, t ∈ s.tasks ∨ t.deletions = [] ∧ t.job = false ∧
      ∀ id, t ≠ .markAttachmentUploaded id)
    (hgone : ∀ r, s.Found r → ∀ t ∈ s.tasks, r ∈ t.gone → ∃ t ∈ tasks, r ∈ t.gone) :
    Kept { s with tasks := tasks } where
  fresh := h.fresh
  reminded := by
    intro url hurl
    refine ⟨(h.reminded url hurl).row, (h.reminded url hurl).note, fun t ht e he => ?_⟩
    rcases htasks t ht with ht | ⟨hnil, -⟩
    · exact (h.reminded url hurl).written t ht e he
    · rw [hnil] at he
      exact nomatch he
  valid := h.valid
  traced := h.traced
  began := by
    intro now hnow
    refine h.began now (hnow.imp (fun hnow => ?_) fun hnow => ?_) <;>
      exact (htasks _ hnow).resolve_right fun hidle => absurd hidle.2.1 (by simp [AttachmentTask.job])
  swept := by
    intro t ht r hr
    rcases htasks t ht with ht | ⟨-, hjob, -⟩
    · exact h.swept t ht r hr
    · rw [(lists_of_job hjob).1] at hr
      exact nomatch hr
  sweptKeys := by
    intro t ht e he
    rcases htasks t ht with ht | ⟨-, hjob, -⟩
    · exact h.sweptKeys t ht e he
    · rw [(lists_of_job hjob).2.2.1] at he
      exact nomatch he
  gone := by
    intro t ht r hr
    rcases htasks t ht with ht | ⟨-, hjob, -⟩
    · exact h.gone t ht r hr
    · rw [(lists_of_job hjob).2.1] at hr
      exact nomatch hr
  goneKeys := by
    intro t ht e he
    rcases htasks t ht with ht | ⟨-, hjob, -⟩
    · exact h.goneKeys t ht e he
    · rw [(lists_of_job hjob).2.2.2] at he
      exact nomatch he
  found := by
    intro r hr hfound
    have hbefore : s.Found r := by
      refine hfound.imp_right fun hfound => hfound.imp_right fun hmark => ⟨hmark.1, ?_⟩
      exact (htasks _ hmark.2).resolve_right fun hidle => hidle.2.2 r.id rfl
    exact (h.found r hr hbefore).imp_right fun ⟨t, ht, hmem⟩ => hgone r hbefore t ht hmem

theorem job_begins (c : AttachmentCall) : c.begins.job = false := by
  cases c with
  | sendMessage | editMessage =>
    simp only [AttachmentCall.begins]
    split <;> rfl
  | _ => rfl

/-- What is kept when other tables are written. -/
theorem Kept.of_same (h : s.Kept) {n : Ulid} (hattachments : d.attachments = s.tables.attachments)
    (hdeletions : d.storageDeletions = s.tables.storageDeletions) :
    Kept { s with
      tables := d
      ids := n } := by
  have htraced : ∀ {key : ObjectKey}, s.Traced key → Traced { s with
      tables := d
      ids := n } key := by
    intro key hkey
    show (∃ r ∈ d.attachments, r.objectKey = key) ∨ ∃ e ∈ d.storageDeletions, e.objectKey = key
    rw [hattachments, hdeletions]
    exact hkey
  refine ⟨h.fresh, fun url hurl => ?_, fun url hurl hvalid => htraced (h.valid url hurl hvalid),
    fun key hsome => htraced (h.traced key hsome), h.began, h.swept, h.sweptKeys, h.gone, h.goneKeys,
    fun r hr hfound => h.found r ?_ hfound⟩
  · obtain ⟨hrow, hnote, hwritten⟩ := h.reminded url hurl
    refine ⟨?_, ?_, hwritten⟩
    · rw [← hattachments] at hrow
      exact hrow
    · rw [← hdeletions] at hnote
      exact hnote
  · rw [← hattachments]
    exact hr

theorem Kept.tick (h : s.Kept) : Kept { s with clock := s.clock + 1 } := by
  have hlt : s.clock < s.clock + 1 := Nat.lt_succ_self _
  refine ⟨fun url hurl => (h.fresh url hurl).trans ?_, fun url hurl => ?_,
    fun url hurl hvalid => h.valid url hurl (hlt.trans hvalid), h.traced,
    fun now hnow => (h.began now hnow).trans hlt.le, fun t ht r hr => ?_,
    fun t ht e he => (h.sweptKeys t ht e he).trans hlt.le, fun t ht r hr => ?_, h.goneKeys, h.found⟩
  · exact Nat.add_le_add_right hlt.le _
  · exact ⟨(h.reminded url hurl).row, (h.reminded url hurl).note, (h.reminded url hurl).written⟩
  · exact (h.swept t ht r hr).imp_right fun hold => hold.trans hlt
  · exact ⟨(h.gone t ht r hr).1, fun url hurl hkey =>
      ((h.gone t ht r hr).2 url hurl hkey).trans hlt.le⟩

/-- **A client puts an object** while its key is not forgotten. -/
theorem Kept.put (hs : s.Sound) (h : s.Kept) {url : PresignedPut} (hurl : url ∈ s.urls)
    (hvalid : s.clock < url.expiresAt) (info : ObjectInfo) :
    Kept { s with store := Function.update s.store url.key (some info) } := by
  have hother : ∀ {key : ObjectKey}, key ≠ url.key →
      Function.update s.store url.key (some info) key = s.store key := fun hne =>
    update_of_ne hne _ _
  refine ⟨h.fresh, fun url hurl => ?_, h.valid, fun key hsome => ?_, h.began, h.swept, h.sweptKeys,
    fun t ht r hr => ⟨?_, (h.gone t ht r hr).2⟩, fun t ht e he => ?_, fun r hr hfound => ?_⟩
  · exact ⟨(h.reminded url hurl).row, (h.reminded url hurl).note, (h.reminded url hurl).written⟩
  · by_cases hkey : key = url.key
    · exact hkey ▸ h.valid url hurl hvalid
    · change (Function.update s.store url.key (some info) key).isSome at hsome
      rw [hother hkey] at hsome
      exact h.traced key hsome
  · show Function.update s.store url.key (some info) r.objectKey = none
    rw [hother fun hkey => ?_]
    · exact (h.gone t ht r hr).1
    · exact absurd ((h.gone t ht r hr).2 url hurl hkey.symm) hvalid.not_ge
  · show Function.update s.store url.key (some info) e.objectKey = none
    rw [hother fun hkey => ?_]
    · exact h.goneKeys t ht e he
    · have hswept := mem_sweptKeys_of_goneKeys he
      have hlate := (h.reminded url hurl).note e ((hs.fits t ht).sweptKeys hswept) hkey
      exact absurd (hlate.trans (h.sweptKeys t ht e hswept)) hvalid.not_ge
  · refine (h.found r hr hfound).imp_left fun hsome => ?_
    show (Function.update s.store url.key (some info) r.objectKey).isSome
    by_cases hkey : r.objectKey = url.key
    · rw [hkey, update_self]
      rfl
    · rw [hother hkey]
      exact hsome

theorem Kept.act (hs : s.Sound) (hk : s.Known) (h : s.Kept) (hsafe : s.SafeStore a)
    (hact : s.act a = some s') : s'.Kept := by
  cases step_of_act hact with
  | step hi hfree => exact h.step hs hk hi hfree (hsafe _ hi)
  | @fail i t hi hdone =>
    refine h.of_tasks (fun u hu => ?_) fun r hfound u hu hr => ?_
    · rcases mem_or_eq_of_mem_set hu with hu | rfl
      · exact .inl hu
      · exact .inr ⟨rfl, rfl, by simp [refuse]⟩
    · obtain ⟨j, hj⟩ := getElem?_of_mem hu
      by_cases hne : j = i
      · subst hne
        obtain rfl := Option.some.inj (hi.symm.trans hj)
        exact absurd hfound (hsafe t hi r hr)
      · have hj' : (s.tasks.set i (refuse .failed))[j]? = some u :=
          (getElem?_set_ne (Ne.symm hne)).trans hj
        exact ⟨u, mem_of_getElem? hj', hr⟩
  | start c =>
    refine h.of_tasks (fun u hu => ?_) fun r hfound u hu hr => ⟨u, mem_append_left _ hu, hr⟩
    rcases mem_append.mp hu with hu | hu
    · exact .inl hu
    · obtain rfl := mem_singleton.mp hu
      exact .inr ⟨(idle_begins c).1, job_begins c, (idle_begins c).2.2.1⟩
  | tick => exact h.tick
  | put hu hvalid => exact h.put hs (mem_of_getElem? hu) hvalid _
  | _ => exact h.of_same rfl rfl

/-- **What is kept** holds in every state that a run reaches in which nothing goes wrong. -/
theorem kept_of_reachable (hs : system.ReachableBy SafeStore s) : s.Kept := by
  have hboth : system.ReachableBy SafeStore s ∧ s.Kept := by
    refine hs.invariant (I := fun s => system.ReachableBy SafeStore s ∧ s.Kept)
      (fun s h => ⟨.start h, ?_⟩) fun s a s' h hsafe hact => ⟨h.1.tail hsafe hact,
        h.2.act (sound_of_reachable h.1) (known_of_reachable h.1) hsafe hact⟩
    obtain ⟨-, hattachments, -, hstore, hurls, htasks⟩ := h
    refine ⟨?_, ?_, ?_, fun key h => ?_, ?_, ?_, ?_, ?_, ?_, ?_⟩
    · rw [hurls]
      exact fun url h => nomatch h
    · rw [hurls]
      exact fun url h => nomatch h
    · rw [hurls]
      exact fun url h => nomatch h
    · rw [hstore] at h
      exact nomatch h
    · rw [htasks]
      exact fun now h => nomatch h
    · rw [htasks]
      exact fun t h => nomatch h
    · rw [htasks]
      exact fun t h => nomatch h
    · rw [htasks]
      exact fun t h => nomatch h
    · rw [htasks]
      exact fun t h => nomatch h
    · rw [hattachments]
      exact fun r h => nomatch h
  exact hboth.2

/-! ## How far an attachment is -/

/-- What becomes of an attachment: it goes on, and is never of another message. -/
def GoesOn (r r' : AttachmentRow) : Prop :=
  r.status.rank ≤ r'.status.rank ∧ (∀ m ∈ r.messageId, r'.messageId = some m) ∧
    r'.roomId = r.roomId ∧ r'.uploaderId = r.uploaderId

theorem GoesOn.refl (r : AttachmentRow) : GoesOn r r := ⟨le_refl _, fun _ hm => hm, rfl, rfl⟩

theorem GoesOn.trans {r r' r'' : AttachmentRow} (h : GoesOn r r') (h' : GoesOn r' r'') :
    GoesOn r r'' :=
  ⟨h.1.trans h'.1, fun m hm => h'.2.1 m (h.2.1 m hm), h'.2.2.1.trans h.2.2.1,
    h'.2.2.2.trans h.2.2.2⟩

/-- **An attachment goes on** with what is written. -/
theorem goesOn_onAttachment {w : AttachmentWrite} {r : AttachmentRow}
    (hd : d.Sound) (hf : w.Fits d) (hr : r ∈ d.attachments) : GoesOn r (w.onAttachment r) := by
  have hdelete : GoesOn r r.delete := by
    refine ⟨?_, fun _ hm => hm, rfl, rfl⟩
    show r.status.rank ≤ 3
    cases r.status <;> decide
  cases w with
  | sendMessage _ _ ids =>
    by_cases hid : r.id ∈ ids
    · obtain ⟨r₀, hr₀, hid₀, hattachable⟩ := hf.2 _ hid
      obtain rfl := hd.attachment_eq hr₀ hr hid₀
      have huploaded : r₀.status = .uploaded := (of_decide_eq_true hattachable).2.2
      rw [AttachmentWrite.onAttachment, if_pos hid]
      have hrank : r₀.status.rank ≤ 2 := by
        rw [huploaded]
        decide
      refine ⟨hrank, fun message hm => ?_, rfl, rfl⟩
      -- what is uploaded is of no message
      have hsent := (hd.sent r₀ hr).mp (Option.isSome_of_mem hm)
      rw [huploaded] at hsent
      rcases hsent with hsent | hsent <;> cases hsent
    · rw [AttachmentWrite.onAttachment, if_neg hid]
      exact GoesOn.refl r
  | softDeleteMessage | deleteMessageAttachment =>
    simp only [AttachmentWrite.onAttachment]
    split
    · exact hdelete
    · exact GoesOn.refl r
  | _ => exact GoesOn.refl r

/-- What has become of an attachment since: it went on, or is no more. -/
structure Since (r : AttachmentRow) (s : AttachmentService) : Prop where
  drawn : r.id < s.ids
  inserted : ∀ row, .insertAttachment row ∈ s.tasks → row.id ≠ r.id
  row : ∀ r' ∈ s.tables.attachments, r'.id = r.id → GoesOn r r'

theorem Since.of_same {r : AttachmentRow} (h : Since r s) (hids : s.ids ≤ s'.ids)
    (hrows : s'.tables.attachments = s.tables.attachments)
    (htasks : ∀ row, .insertAttachment row ∈ s'.tasks → .insertAttachment row ∈ s.tasks) :
    Since r s' := by
  refine ⟨h.drawn.trans_le hids, fun row hrow => h.inserted row (htasks row hrow), ?_⟩
  rw [hrows]
  exact h.row

theorem Since.act {r : AttachmentRow} (hs : s.Sound) (h : Since r s) (hact : s.act a = some s') :
    Since r s' := by
  cases step_of_act hact with
  | @step i t hi hfree hdone =>
    have ht := mem_of_getElem? hi
    refine ⟨h.drawn.trans_le (le_ids_effect t), fun row hrow hid => ?_, fun r' hr' hid => ?_⟩
    · rcases mem_tasks_step hrow with heq | hrow
      · rw [eq_of_turn_insertAttachment heq.symm] at hid
        exact absurd h.drawn (by rw [← hid]; exact lt_irrefl _)
      · exact h.inserted row hrow hid
    · change r' ∈ (s.effect t).tables.attachments at hr'
      rcases tables_effect (s := s) t with heq | ⟨row, rfl, -, heq⟩ | ⟨id, rfl, heq⟩ | ⟨w, rfl, heq⟩
      · exact h.row r' (heq ▸ hr') hid
      · rw [heq] at hr'
        rcases mem_append.mp hr' with hr' | hr'
        · exact h.row r' hr' hid
        · obtain rfl := mem_singleton.mp hr'
          exact absurd hid (h.inserted r' ht)
      · rw [heq] at hr'
        rcases mem_markUploaded.mp hr' with ⟨r₀, hr₀, ⟨-, hpending⟩, rfl⟩ | ⟨hr', -⟩
        · refine (h.row r₀ hr₀ hid).trans ⟨?_, fun _ hm => hm, rfl, rfl⟩
          rw [hpending]
          exact Nat.zero_le _
        · exact h.row r' hr' hid
      · rw [heq] at hr'
        obtain ⟨r₀, hr₀, -, rfl⟩ := exists_of_mem_attachments_perform hr'
        rw [onAttachment_same.1] at hid
        exact (h.row r₀ hr₀ hid).trans (goesOn_onAttachment hs.tables (hs.fits _ ht) hr₀)
  | fail =>
    refine h.of_same (le_refl _) rfl fun row hrow => ?_
    exact (mem_or_eq_of_mem_set hrow).resolve_right (by simp [refuse])
  | start c =>
    refine h.of_same (le_refl _) rfl fun row hrow => ?_
    refine (mem_append.mp hrow).resolve_right fun hrow => ?_
    have hnil := (idle_begins c).2.1
    rw [← mem_singleton.mp hrow] at hnil
    exact absurd hnil (by simp [AttachmentTask.newAttachment])
  | log => exact h.of_same (Nat.le_succ _) rfl fun _ hrow => hrow
  | _ => exact h.of_same (le_refl _) rfl fun _ hrow => hrow

/-- **An attachment goes on** in every run. -/
theorem goesOn_of_steps {P Q : AttachmentService → AttachmentAction → Prop}
    (hs : system.ReachableBy P s) (hsteps : system.Steps Q s s') {r r' : AttachmentRow}
    (hr : r ∈ s.tables.attachments) (hr' : r' ∈ s'.tables.attachments) (hid : r'.id = r.id) :
    GoesOn r r' := by
  have hsound := sound_of_reachable hs
  have hsince : Since r s := by
    refine ⟨hsound.drawn.attachments r hr, fun row hrow heq => ?_, fun r' hr' hid => ?_⟩
    · exact hsound.drawn.inserted row hrow (heq ▸ mem_map_of_mem hr)
    · rw [hsound.tables.attachment_eq hr' hr hid]
      exact GoesOn.refl r
  have hboth : s'.Sound ∧ Since r s' :=
    hsteps.preserves (I := fun s => s.Sound ∧ Since r s)
      (fun _ _ _ h _ hact => ⟨h.1.act hact, h.2.act h.1 hact⟩) ⟨hsound, hsince⟩
  exact hboth.2.row r' hr' hid

/-- A room, and nothing in it. -/
def oneRoom : AttachmentService where
  tables := ⟨fun room => if room = 1 then some ⟨false, 0, 0, 0⟩ else none, [], [], []⟩
  store := fun _ => none
  urls := []
  clock := 0
  ids := 10
  tasks := []

/-- An image is put, found, and sent with a message. -/
def sent : List AttachmentAction :=
  [.start (.createAttachment 2 1 "image/png" 5), .step 0, .step 0, .step 0,
    .put 0 ⟨some "image/png", 5⟩, .start (.completeAttachment 2 10), .step 1, .step 1, .step 1,
    .start (.sendMessage 2 1 ⟨7, "x", none, false, [10]⟩), .step 2, .step 2, .step 2, .step 2,
    .step 2, .step 2]

/-- The image is deleted from the message, and by the job. -/
def removed : List AttachmentAction :=
  [.start (.deleteMessageAttachment 1 11 10), .step 3, .step 3, .step 3, .step 3, .step 3,
    .start .cleanupAttachmentBatch, .step 4, .step 4, .step 4, .step 4, .step 4]

/-- **No object is left behind, and none that is in use is deleted**, in a run in which no URL is
signed for a key that is forgotten too soon, no object of a deleted attachment is deleted while it may
be put again, none that was found since is deleted as no match, and no batch fails that has deleted
what was found. In every run an attachment only goes on, and is of one message, in its room and of
whoever uploaded it. -/
theorem no_object_orphaned (hs : system.ReachableBy SafeStore s) :
    (∀ key, (s.store key).isSome → s.Traced key) ∧
    (∀ r ∈ s.tables.attachments, r.status = .attached → (s.store r.objectKey).isSome) ∧
    (∀ s', system.Steps (fun _ _ => True) s s' → ∀ r ∈ s.tables.attachments,
      ∀ r' ∈ s'.tables.attachments, r'.id = r.id → r.status.rank ≤ r'.status.rank ∧
        ∀ m ∈ r.messageId, r'.messageId = some m) ∧
    ∀ r ∈ s.tables.attachments, ∀ id ∈ r.messageId,
      ∃ m ∈ s.tables.messages, m.id = id ∧ m.roomId = r.roomId ∧ m.senderId = r.uploaderId := by
  have hsound := sound_of_reachable hs
  have hkept := kept_of_reachable hs
  refine ⟨hkept.traced, fun r hr hattached => ?_, fun s' hsteps r hr r' hr' hid => ?_,
    hsound.tables.ofMessage⟩
  · rcases hkept.found r hr (.inr (.inl hattached)) with hsome | ⟨t, ht, hgone⟩
    · exact hsome
    · -- a batch takes no attachment of a message
      have hswept := (hsound.fits t ht).swept (mem_swept_of_gone hgone)
      exact absurd hattached hswept.1.2
  · have hgoes := goesOn_of_steps hs hsteps hr hr' hid
    exact ⟨hgoes.1, hgoes.2.1⟩

/-- The object of an image that was sent is there. -/
theorem no_object_orphaned_sent : ∃ s, system.ReachableBy SafeStore s ∧
    ∃ r ∈ s.tables.attachments, r.status = .attached ∧ (s.store r.objectKey).isSome := by
  have hrun : (system.runBy SafeStore oneRoom sent).any (fun s =>
      s.tables.attachments.any fun r => decide (r.status = .attached)) = true := by
    decide +kernel
  obtain ⟨s, hreach, htest⟩ :=
    TransitionSystem.exists_of_runBy hrun ⟨rfl, rfl, rfl, rfl, rfl, rfl⟩
  obtain ⟨r, hr, hattached⟩ := any_eq_true.mp htest
  have hstatus : r.status = .attached := of_decide_eq_true hattached
  exact ⟨s, hreach, r, hr, hstatus, (no_object_orphaned hreach).2.1 r hr hstatus⟩

/-- **An object that is left behind.** An image is sent and deleted at once, and the job deletes its
object and its row; but the URL is still good, and the object is put again. -/
theorem put_after_cleanup : ∃ s key, system.Reachable s ∧ (s.store key).isSome ∧ ¬ s.Traced key := by
  have hrun : (system.run oneRoom (sent ++ removed ++ [.put 0 ⟨some "image/png", 5⟩])).any (fun s =>
      (s.store ⟨1, 10⟩).isSome && !decide (s.Traced ⟨1, 10⟩)) = true := by
    decide +kernel
  obtain ⟨s, hreach, htest⟩ := TransitionSystem.exists_of_run hrun ⟨rfl, rfl, rfl, rfl, rfl, rfl⟩
  obtain ⟨hsome, hnot⟩ := Bool.and_eq_true_iff.mp htest
  refine ⟨s, ⟨1, 10⟩, ?_, hsome, by simpa using hnot⟩
  exact hreach

end AttachmentService

end Hibari
