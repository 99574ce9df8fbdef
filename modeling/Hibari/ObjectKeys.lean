import Hibari.AttachmentRuns

/-!
# Keys of objects

What the store, the URLs, the tables and the calls know of an attachment is its key, and an id that
was drawn is never drawn again. So a key that a call has not yet signed a URL for is nobody else's:
nothing was put there, nobody found it, and its row, if it is there, is as it was made
(`Known.unsigned`).
-/

namespace Hibari

open List Function AttachmentWrite

namespace AttachmentTask

/-- The keys that a deletion of a room has written down. -/
def deletions : AttachmentTask → List StorageDeletion
  | cascade _ deletions | commit (.deleteRoom _ _ _ deletions) => deletions
  | _ => []

/-- The attachments whose objects a batch has deleted. -/
def gone : AttachmentTask → List AttachmentRow
  | deleteObjects gone _ | commit (.deleteAttachments gone) => gone
  | _ => []

/-- The attachments that a batch has taken. -/
def swept : AttachmentTask → List AttachmentRow
  | deleteObjects gone todo => gone ++ todo
  | commit (.deleteAttachments gone) => gone
  | _ => []

/-- The keys whose objects a batch has deleted. -/
def goneKeys : AttachmentTask → List StorageDeletion
  | deleteDueObjects gone _ | commit (.deleteStorageDeletions gone) => gone
  | _ => []

/-- The keys that a batch has taken. -/
def sweptKeys : AttachmentTask → List StorageDeletion
  | deleteDueObjects gone todo => gone ++ todo
  | commit (.deleteStorageDeletions gone) => gone
  | _ => []

end AttachmentTask

namespace AttachmentService

variable {s s' : AttachmentService} {a : AttachmentAction} {t u : AttachmentTask} {i : ℕ}
  {e : StorageDeletion} {id : Ulid}

/-! ## What a step does -/

/-- The URLs after a step. -/
theorem mem_urls_effect {url : PresignedPut} (h : url ∈ (s.effect t).urls) :
    url ∈ s.urls ∨ ∃ key, t = .presignPut key ∧ url = ⟨key, s.clock + uploadURLTTL⟩ := by
  cases t with
  | presignPut key =>
    rcases mem_append.mp h with h | h
    · exact .inl h
    · exact .inr ⟨key, rfl, mem_singleton.mp h⟩
  | allocateSeq | insertAttachment =>
    simp only [effect] at h
    split at h <;> exact .inl h
  | deleteObjects _ todo | deleteDueObjects _ todo => cases todo <;> exact .inl h
  | _ => exact .inl h

theorem clock_effect (t : AttachmentTask) : (s.effect t).clock = s.clock := by
  cases t with
  | allocateSeq | insertAttachment =>
    simp only [effect]
    split <;> rfl
  | deleteObjects _ todo | deleteDueObjects _ todo => cases todo <;> rfl
  | _ => rfl

/-- **What a call does to the store**: nothing, or it deletes one object. -/
theorem store_effect (t : AttachmentTask) : (s.effect t).store = s.store ∨ ∃ key,
    (s.effect t).store = update s.store key none ∧
    (t = .deleteMismatched key ∨
      (∃ gone r todo, t = .deleteObjects gone (r :: todo) ∧ key = r.objectKey) ∨
      ∃ gone e todo, t = .deleteDueObjects gone (e :: todo) ∧ key = e.objectKey) := by
  cases t with
  | allocateSeq | insertAttachment =>
    simp only [effect]
    split <;> exact .inl rfl
  | deleteMismatched key => exact .inr ⟨key, rfl, .inl rfl⟩
  | deleteObjects gone todo =>
    cases todo with
    | nil => exact .inl rfl
    | cons r todo => exact .inr ⟨_, rfl, .inr (.inl ⟨gone, r, todo, rfl, rfl⟩)⟩
  | deleteDueObjects gone todo =>
    cases todo with
    | nil => exact .inl rfl
    | cons e todo => exact .inr ⟨_, rfl, .inr (.inr ⟨gone, e, todo, rfl, rfl⟩)⟩
  | _ => exact .inl rfl

/-- Nothing is put into the store by a call. -/
theorem store_of_effect {key : ObjectKey} (h : s.store key = none) :
    (s.effect t).store key = none := by
  rcases store_effect (s := s) t with heq | ⟨key', heq, -⟩
  · rw [heq, h]
  · rw [heq]
    by_cases hkey : key = key'
    · rw [hkey, update_self]
    · rw [update_of_ne hkey, h]

/-- The keys that are to be deleted after a step. -/
theorem mem_storageDeletions_effect (h : e ∈ (s.effect t).tables.storageDeletions) :
    e ∈ s.tables.storageDeletions ∨ e ∈ t.deletions := by
  rcases tables_effect (s := s) t with heq | ⟨row, -, -, heq⟩ | ⟨id, -, heq⟩ | ⟨w, rfl, heq⟩
  · exact .inl (heq ▸ h)
  · rw [heq] at h
    exact .inl h
  · rw [heq] at h
    exact .inl h
  · rw [heq] at h
    cases w with
    | sendMessage m | softDeleteMessage m =>
      cases hroot : m.threadRootId <;> simp only [AttachmentTables.perform, hroot] at h <;>
        exact .inl h
    | deleteRoom =>
      exact (mem_append.mp h).imp_right mem_of_mem_filter
    | deleteStorageDeletions => exact .inl (mem_of_mem_filter h)
    | _ => exact .inl h

/-- **The attachments after a step** are those that were there, of the same key and time. -/
theorem exists_of_mem_attachments_effect {r' : AttachmentRow}
    (h : r' ∈ (s.effect t).tables.attachments) : t = .insertAttachment r' ∨
      ∃ r ∈ s.tables.attachments, r.id = r'.id ∧ r.objectKey = r'.objectKey ∧
        r.createdAt = r'.createdAt := by
  rcases tables_effect (s := s) t with heq | ⟨row, rfl, -, heq⟩ | ⟨id, -, heq⟩ | ⟨w, -, heq⟩
  · exact .inr ⟨r', heq ▸ h, rfl, rfl, rfl⟩
  · rw [heq] at h
    rcases mem_append.mp h with h | h
    · exact .inr ⟨r', h, rfl, rfl, rfl⟩
    · exact .inl (by rw [mem_singleton.mp h])
  · rw [heq] at h
    rcases mem_markUploaded.mp h with ⟨r, hr, -, rfl⟩ | ⟨hr, -⟩
    · exact .inr ⟨r, hr, rfl, rfl, rfl⟩
    · exact .inr ⟨r', hr, rfl, rfl, rfl⟩
  · rw [heq] at h
    obtain ⟨r, hr, -, rfl⟩ := exists_of_mem_attachments_perform h
    obtain ⟨hid, hroom, -, hcreated⟩ := onAttachment_same (w := w) (r := r)
    refine .inr ⟨r, hr, hid.symm, ?_, hcreated.symm⟩
    rw [AttachmentRow.objectKey, AttachmentRow.objectKey, hid, hroom]

/-- Keys are written down from rows. -/
theorem mem_deletions_turn (h : e ∈ (s.turn t).deletions) :
    e ∈ t.deletions ∨ e.notBefore = s.clock + storageDeletionDelay ∧
      ∃ r ∈ s.tables.attachments, r.objectKey = e.objectKey := by
  cases t with
  | enqueueRoomStorageDeletions =>
    obtain ⟨r, hr, rfl⟩ := mem_map.mp h
    exact .inr ⟨rfl, r, mem_of_mem_filter hr, rfl⟩
  | cascade => exact .inl h
  | attaching _ _ _ todo =>
    cases todo <;> simp only [turn] at h <;> split at h <;> cases h
  | marking _ _ todo =>
    cases todo with
    | nil => cases h
    | cons =>
      simp only [turn] at h
      split at h <;> cases h
  | deleteObjects _ todo | deleteDueObjects _ todo =>
    cases todo <;> cases h
  | _ =>
    simp only [turn] at h
    repeat' split at h
    all_goals cases h

/-- An object is marked as uploaded by who has found it. -/
theorem eq_of_turn_markAttachmentUploaded (h : s.turn t = .markAttachmentUploaded id) :
    ∃ row, t = .headObject row ∧ row.id = id ∧ (s.store row.objectKey).isSome := by
  cases t with
  | headObject row =>
    simp only [turn] at h
    split at h
    · cases h
    · next info hinfo =>
      split at h
      · exact ⟨row, rfl, by simpa using h, by rw [hinfo]; rfl⟩
      · cases h
  | attaching _ _ _ todo =>
    cases todo <;> simp only [turn] at h <;> split at h <;> cases h
  | marking _ _ todo =>
    cases todo with
    | nil => exact absurd h (by simp [turn])
    | cons =>
      simp only [turn] at h
      split at h <;> cases h
  | deleteObjects _ todo | deleteDueObjects _ todo =>
    cases todo <;> exact absurd h (by simp [turn])
  | _ =>
    simp only [turn, refuse, invalidThreadRoot] at h
    repeat' split at h
    all_goals cases h

/-- Who looks for an object has read its row. -/
theorem mem_of_turn_headObject {row : AttachmentRow} (h : s.turn t = .headObject row) :
    row ∈ s.tables.attachments := by
  cases t with
  | completeAttachment =>
    simp only [turn, refuse] at h
    split at h
    · next row' hrow =>
      obtain ⟨hmem, -⟩ := AttachmentTables.mem_of_getAttachment hrow
      split at h
      · cases h
      · split at h
        · split at h <;> cases h
        · obtain rfl : row' = row := by simpa using h
          exact hmem
    · cases h
  | attaching _ _ _ todo =>
    cases todo <;> simp only [turn] at h <;> split at h <;> cases h
  | marking _ _ todo =>
    cases todo with
    | nil => exact absurd h (by simp [turn])
    | cons =>
      simp only [turn] at h
      split at h <;> cases h
  | deleteObjects _ todo | deleteDueObjects _ todo =>
    cases todo <;> exact absurd h (by simp [turn])
  | _ =>
    simp only [turn, refuse, invalidThreadRoot] at h
    repeat' split at h
    all_goals cases h

/-! ## Keys that are known -/

/-- A key of which no more is known than that its row was made. -/
structure Unsigned (s : AttachmentService) (id : Ulid) : Prop where
  urls : ∀ url ∈ s.urls, url.key.attachmentId ≠ id
  store : ∀ key, key.attachmentId = id → s.store key = none
  row : ∀ r ∈ s.tables.attachments, r.id = id → r.status = .pending
  found : .markAttachmentUploaded id ∉ s.tasks

/-- **What is known of keys**: ids that were drawn, and of a key that is unsigned nothing else. -/
structure Known (s : AttachmentService) : Prop where
  urls : ∀ url ∈ s.urls, url.key.attachmentId < s.ids
  store : ∀ key, (s.store key).isSome → key.attachmentId < s.ids
  deletions : ∀ e ∈ s.tables.storageDeletions, e.objectKey.attachmentId < s.ids
  written : ∀ t ∈ s.tasks, ∀ e ∈ t.deletions, e.objectKey.attachmentId < s.ids
  found : ∀ id, .markAttachmentUploaded id ∈ s.tasks → id < s.ids
  /-- A row that was read has the key that it had, and its id is not drawn again. -/
  headed : ∀ row, .headObject row ∈ s.tasks → row.id < s.ids ∧
    (∀ row', .insertAttachment row' ∈ s.tasks → row'.id ≠ row.id) ∧
    ∀ r ∈ s.tables.attachments, r.id = row.id → r.objectKey = row.objectKey
  unsigned : ∀ t ∈ s.tasks, ∀ id ∈ t.newAttachment, s.Unsigned id

theorem mem_tasks_step (h : u ∈ ((s.effect t).goes i (s.turn t)).tasks) :
    u = s.turn t ∨ u ∈ s.tasks := by
  change u ∈ (s.effect t).tasks.set i (s.turn t) at h
  rw [tasks_effect] at h
  exact (mem_or_eq_of_mem_set h).symm

/-- An attachment that may be taken or deleted is not as it was made. -/
theorem status_onAttachment {d : AttachmentTables} {w : AttachmentWrite} {r : AttachmentRow}
    (hd : d.Sound) (hf : w.Fits d) (hr : r ∈ d.attachments) (h : r.status = .pending) :
    w.onAttachment r = r := by
  have hattached : ∀ {m : ChatMessage} {id : Ulid}, d.Attached m id → r.id ≠ id := by
    intro m id ha hid
    have hstatus := (of_decide_eq_true (hd.attached_iff ha hr hid)).2
    cases hstatus.symm.trans h
  cases w with
  | sendMessage =>
    refine if_neg fun hid => ?_
    obtain ⟨r', hr', heq, hattachable⟩ := hf.2 _ hid
    obtain rfl := hd.attachment_eq hr' hr heq
    cases (of_decide_eq_true hattachable).2.2.symm.trans h
  | softDeleteMessage =>
    exact if_neg fun hid => hattached (hf.2.2 _ hid) rfl
  | deleteMessageAttachment =>
    exact if_neg fun hid => hattached hf.2.2.1 (mem_singleton.mp hid)
  | _ => rfl

/-- **An unsigned key stays unsigned**, as long as nobody else signs it. -/
theorem Unsigned.step (hs : s.Sound) (h : s.Unsigned id)
    (hi : s.tasks[i]? = some t) (hother : ∀ key, t = .presignPut key → key.attachmentId ≠ id) :
    Unsigned ((s.effect t).goes i (s.turn t)) id where
  urls := by
    intro url hurl
    rcases mem_urls_effect hurl with hurl | ⟨key, rfl, rfl⟩
    · exact h.urls url hurl
    · exact hother key rfl
  store := fun key hkey => store_of_effect (h.store key hkey)
  row := by
    intro r' hr' hid
    have ht := mem_of_getElem? hi
    change r' ∈ (s.effect t).tables.attachments at hr'
    rcases tables_effect (s := s) t with heq | ⟨row, rfl, -, heq⟩ | ⟨id', rfl, heq⟩ | ⟨w, rfl, heq⟩
    · exact h.row r' (heq ▸ hr') hid
    · rw [heq] at hr'
      rcases mem_append.mp hr' with hr' | hr'
      · exact h.row r' hr' hid
      · rw [mem_singleton.mp hr']
        exact (hs.fits _ ht).1
    · rw [heq] at hr'
      rcases mem_markUploaded.mp hr' with ⟨r, hr, hboth, rfl⟩ | ⟨hr, -⟩
      · exact absurd ((hboth.1.symm.trans hid) ▸ ht) h.found
      · exact h.row r' hr hid
    · rw [heq] at hr'
      obtain ⟨r, hr, -, rfl⟩ := exists_of_mem_attachments_perform hr'
      rw [onAttachment_same.1] at hid
      have hpending := h.row r hr hid
      rw [status_onAttachment hs.tables (hs.fits _ ht) hr hpending]
      exact hpending
  found := by
    intro hmem
    rcases mem_tasks_step hmem with heq | hmem
    · -- nobody finds an object that is not there
      obtain ⟨row, rfl, rfl, hsome⟩ := eq_of_turn_markAttachmentUploaded heq.symm
      rw [h.store row.objectKey rfl] at hsome
      cases hsome
    · exact h.found hmem

theorem unsigned_ids (hs : s.Sound) (hk : s.Known) : s.Unsigned s.ids where
  urls := fun url hurl => (hk.urls url hurl).ne
  store := by
    intro key hkey
    cases hstore : s.store key with
    | none => rfl
    | some => exact absurd (hk.store key (by rw [hstore]; rfl)) (by rw [hkey]; exact lt_irrefl _)
  row := fun r hr hid => absurd (hs.drawn.attachments r hr) (by rw [hid]; exact lt_irrefl _)
  found := fun hmem => absurd (hk.found _ hmem) (lt_irrefl _)

theorem Known.step (hs : s.Sound) (hk : s.Known) (hi : s.tasks[i]? = some t) :
    Known ((s.effect t).goes i (s.turn t)) := by
  have ht := mem_of_getElem? hi
  have hle : s.ids ≤ (s.effect t).ids := le_ids_effect t
  refine ⟨fun url hurl => ?_, fun key hsome => ?_, fun e he => ?_, fun u hu e he => ?_,
    fun id hid => ?_, fun row hrow => ?_, fun u hu id hid => ?_⟩
  · rcases mem_urls_effect hurl with hurl | ⟨key, rfl, rfl⟩
    · exact (hk.urls url hurl).trans_le hle
    · exact (hs.drawn.newAttachment _ ht _ (.head _)).trans_le hle
  · refine (hk.store key ?_).trans_le hle
    cases hstore : s.store key with
    | none =>
      change ((s.effect t).store key).isSome at hsome
      rw [store_of_effect hstore] at hsome
      cases hsome
    | some => rfl
  · rcases mem_storageDeletions_effect he with he | he
    · exact (hk.deletions e he).trans_le hle
    · exact (hk.written t ht e he).trans_le hle
  · rcases mem_tasks_step hu with rfl | hu
    · rcases mem_deletions_turn he with he | ⟨-, r, hr, heq⟩
      · exact (hk.written t ht e he).trans_le hle
      · rw [← heq]
        exact (hs.drawn.attachments r hr).trans_le hle
    · exact (hk.written u hu e he).trans_le hle
  · rcases mem_tasks_step hid with heq | hid
    · obtain ⟨row, rfl, rfl, -⟩ := eq_of_turn_markAttachmentUploaded heq.symm
      exact ((hk.headed row ht).1).trans_le hle
    · exact (hk.found id hid).trans_le hle
  · -- a row that is read now, or was read before
    have hthere : row.id < s.ids ∧ (∀ row', .insertAttachment row' ∈ s.tasks → row'.id ≠ row.id) ∧
        ∀ r ∈ s.tables.attachments, r.id = row.id → r.objectKey = row.objectKey := by
      rcases mem_tasks_step hrow with heq | hrow
      · have hmem := mem_of_turn_headObject heq.symm
        refine ⟨hs.drawn.attachments row hmem, fun row' hrow' hid => ?_, fun r hr hid => ?_⟩
        · exact hs.drawn.inserted row' hrow' (hid ▸ mem_map_of_mem hmem)
        · rw [hs.tables.attachment_eq hr hmem hid]
      · exact hk.headed row hrow
    obtain ⟨hlt, hinserted, hkey⟩ := hthere
    refine ⟨hlt.trans_le hle, fun row' hrow' hid => ?_, fun r hr hid => ?_⟩
    · rcases mem_tasks_step hrow' with heq | hrow'
      · rw [eq_of_turn_insertAttachment heq.symm] at hid
        exact absurd hlt (by rw [hid]; exact lt_irrefl _)
      · exact hinserted row' hrow' hid
    · rcases exists_of_mem_attachments_effect hr with rfl | ⟨r₀, hr₀, hid₀, hkey₀, -⟩
      · exact absurd hid (hinserted r ht)
      · exact hkey₀.symm.trans (hkey r₀ hr₀ (hid₀.trans hid))
  · have hold : ∀ {j : ℕ} {u : AttachmentTask}, s.tasks[j]? = some u → (j = i → ∀ key, t ≠ .presignPut key) →
        id ∈ u.newAttachment → Unsigned ((s.effect t).goes i (s.turn t)) id := by
      intro j u hj hji hid
      refine (hk.unsigned u (mem_of_getElem? hj) id hid).step hs hi fun key hkey heq => ?_
      subst hkey
      have hsame := hs.drawn.attachmentsApart j i u _ hj hi id hid (by rw [← heq]; exact .head _)
      exact hji hsame key rfl
    obtain ⟨j, hj⟩ := getElem?_of_mem hu
    change ((s.effect t).tasks.set i (s.turn t))[j]? = some u at hj
    rw [tasks_effect] at hj
    rcases HeldRows.getElem?_set_cases hj with ⟨-, rfl⟩ | ⟨hne, hj'⟩
    · rcases mem_newAttachment_turn hid with hmem | ⟨rfl, -⟩
      · refine hold hi (fun _ key hkey => ?_) hmem
        subst hkey
        cases hid
      · refine (unsigned_ids hs hk).step hs hi fun key hkey heq => ?_
        subst hkey
        cases hid
    · exact hold hj' (fun heq => absurd heq hne) hid

/-- A step that is none of a call, and that draws no id. -/
theorem Unsigned.of_same (h : s.Unsigned id) (hurls : s'.urls = s.urls)
    (hstore : ∀ key, key.attachmentId = id → s.store key = none → s'.store key = none)
    (hrows : s'.tables.attachments = s.tables.attachments)
    (hfound : .markAttachmentUploaded id ∈ s'.tasks → .markAttachmentUploaded id ∈ s.tasks) :
    s'.Unsigned id where
  urls := by
    rw [hurls]
    exact h.urls
  store := fun key hkey => hstore key hkey (h.store key hkey)
  row := by
    rw [hrows]
    exact h.row
  found := fun hmem => h.found (hfound hmem)

/-- Calls that end or begin know nothing. -/
theorem Known.of_tasks {tasks : List AttachmentTask} (hk : s.Known)
    (htasks : ∀ t ∈ tasks, t ∈ s.tasks ∨ t.deletions = [] ∧ t.newAttachment = [] ∧
      (∀ id, t ≠ .markAttachmentUploaded id) ∧ ∀ row, t ≠ .headObject row) :
    Known { s with tasks := tasks } where
  urls := hk.urls
  store := hk.store
  deletions := hk.deletions
  written := by
    intro t ht e he
    rcases htasks t ht with ht | ⟨hnil, -⟩
    · exact hk.written t ht e he
    · rw [hnil] at he
      cases he
  found := fun id hid => hk.found id ((htasks _ hid).resolve_right fun h => h.2.2.1 id rfl)
  headed := by
    intro row hrow
    obtain ⟨hlt, hinserted, hkey⟩ := hk.headed row ((htasks _ hrow).resolve_right fun h => h.2.2.2 row rfl)
    refine ⟨hlt, fun row' hrow' => hinserted row' ((htasks _ hrow').resolve_right fun h => ?_), hkey⟩
    exact absurd h.2.1 (by simp [AttachmentTask.newAttachment])
  unsigned := by
    intro t ht id hid
    rcases htasks t ht with ht | ⟨-, hnil, -⟩
    · exact (hk.unsigned t ht id hid).of_same rfl (fun _ _ h => h) rfl fun hmem =>
        (htasks _ hmem).resolve_right fun h => h.2.2.1 id rfl
    · rw [hnil] at hid
      cases hid

theorem idle_begins (c : AttachmentCall) : c.begins.deletions = [] ∧ c.begins.newAttachment = [] ∧
    (∀ id, c.begins ≠ .markAttachmentUploaded id) ∧ ∀ row, c.begins ≠ .headObject row := by
  cases c with
  | sendMessage | editMessage =>
    simp only [AttachmentCall.begins]
    split <;> exact ⟨rfl, rfl, by simp, by simp⟩
  | _ => exact ⟨rfl, rfl, by simp [AttachmentCall.begins], by simp [AttachmentCall.begins]⟩

theorem Known.act (hs : s.Sound) (hk : s.Known) (hact : s.act a = some s') : s'.Known := by
  cases step_of_act hact with
  | step hi => exact hk.step hs hi
  | fail =>
    refine hk.of_tasks fun u hu => ?_
    rcases mem_or_eq_of_mem_set hu with hu | rfl
    · exact .inl hu
    · exact .inr ⟨rfl, rfl, by simp [refuse], by simp [refuse]⟩
  | start c =>
    refine hk.of_tasks fun u hu => ?_
    rcases mem_append.mp hu with hu | hu
    · exact .inl hu
    · obtain rfl := mem_singleton.mp hu
      exact .inr (idle_begins c)
  | @put url u info hu hvalid =>
    have hurl := mem_of_getElem? hu
    refine ⟨hk.urls, fun key hsome => ?_, hk.deletions, hk.written, hk.found, hk.headed,
      fun v hv id hid => (hk.unsigned v hv id hid).of_same rfl (fun key hkey hnone => ?_) rfl
        fun h => h⟩
    · change (update s.store u.key (some info) key).isSome at hsome
      by_cases heq : key = u.key
      · exact heq ▸ hk.urls u hurl
      · rw [update_of_ne heq] at hsome
        exact hk.store key hsome
    · show Function.update s.store u.key (some info) key = none
      rw [update_of_ne, hnone]
      rintro rfl
      exact (hk.unsigned v hv id hid).urls u hurl hkey
  | log =>
    have hlt : s.ids < s.ids + 1 := Nat.lt_succ_self _
    exact ⟨fun url hurl => (hk.urls url hurl).trans hlt, fun key h => (hk.store key h).trans hlt,
      fun e he => (hk.deletions e he).trans hlt, fun u hu e he => (hk.written u hu e he).trans hlt,
      fun id hid => (hk.found id hid).trans hlt,
      fun row hrow => ⟨((hk.headed row hrow).1).trans hlt, (hk.headed row hrow).2⟩,
      fun u hu id hid => (hk.unsigned u hu id hid).of_same rfl (fun _ _ h => h) rfl fun h => h⟩
  | _ => exact ⟨hk.urls, hk.store, hk.deletions, hk.written, hk.found, hk.headed,
      fun u hu id hid => (hk.unsigned u hu id hid).of_same rfl (fun _ _ h => h) rfl fun h => h⟩

/-- **Keys are known** in every state. -/
theorem known_of_reachable {P : AttachmentService → AttachmentAction → Prop}
    (hs : system.ReachableBy P s) : s.Known := by
  have hboth : s.Sound ∧ s.Known := by
    refine hs.invariant (I := fun s => s.Sound ∧ s.Known) (fun s h => ⟨sound_of_init h, ?_⟩)
      fun _ _ _ h _ hact => ⟨h.1.act hact, h.2.act h.1 hact⟩
    obtain ⟨-, -, hdeletions, hstore, hurls, htasks⟩ := h
    refine ⟨?_, fun key h => ?_, ?_, ?_, ?_, ?_, ?_⟩
    · rw [hurls]
      exact nofun
    · rw [hstore] at h
      cases h
    · rw [hdeletions]
      exact nofun
    all_goals
      rw [htasks]
      exact fun x h => nomatch h
  exact hboth.2

end AttachmentService

end Hibari
