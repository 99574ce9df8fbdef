import Hibari.LinkPreviews
import Hibari.AttachmentRows

/-!
# What becomes of previews

A step writes messages that are there, and may add one; each message that gets a number gets one that
its room had not given out (`Turns`). Four things happen to the rows of a message. It is sent, and they
are made; it is edited, and they are made, dropped and put in order; it is deleted, and they are
dropped; and everything else only rewrites rows that stay where they are (`Rewrites`): a worker that
completes one, an author who removes one. A row that is not waiting any more is rewritten by nobody but
its author.
-/

namespace Hibari

open List

/-! ## Tables -/

namespace PreviewTables

variable {d : PreviewTables} {m : ChatMessage} {r : MessageLinkPreview} {room id message : Ulid}

theorem mem_of_getMessage (h : d.getMessage room id = some m) :
    m ∈ d.messages ∧ m.roomId = room ∧ m.id = id :=
  ⟨mem_of_find?_eq_some h, by simpa using find?_some h⟩

theorem mem_of_getPreview (h : d.getPreview id message = some r) :
    r ∈ d.previews ∧ r.id = id ∧ r.messageId = message :=
  ⟨mem_of_find?_eq_some h, by simpa using find?_some h⟩

theorem mem_of_findFresh {url : List Char} {now : ℕ} {l : LinkPreview}
    (h : d.findFresh url now = some l) : l ∈ d.links :=
  mem_of_mem_filter (argmax_mem h)

/-- Whether a row is among what its message shows. -/
def visible (m : ChatMessage) (r : MessageLinkPreview) : Bool :=
  decide (r.roomId = m.roomId ∧ r.messageId = m.id ∧ r.status = .ok ∧ r.removedAt = none)

/-- What a row refers to is there. -/
def Linked (d : PreviewTables) : Prop := ∀ r ∈ d.previews, r.status = .ok →
  ∃ l ∈ d.links, r.linkPreviewId = some l.id

/-- **What a message shows**, when what its rows refer to is there. -/
theorem shown_eq (hd : d.Linked) (m : ChatMessage) : d.shown m = if m.deleted then []
    else (d.previews.filter (visible m)).insertionSort fun r r' => r.position ≤ r'.position := by
  rw [shown]
  split
  · rfl
  · refine congrArg _ (filter_congr fun r hr => ?_)
    show (visible m r && d.links.any fun l => r.linkPreviewId = some l.id) = visible m r
    by_cases hvisible : visible m r = true
    · obtain ⟨l, hl, heq⟩ := hd r hr (of_decide_eq_true hvisible).2.2.1
      rw [hvisible, Bool.true_and]
      exact any_eq_true.mpr ⟨l, hl, decide_eq_true heq⟩
    · have hhidden : visible m r = false := by simpa using hvisible
      rw [hhidden, Bool.false_and]

theorem mem_shown (hd : d.Linked) {m : ChatMessage} : r ∈ d.shown m ↔
    m.deleted = false ∧ r ∈ d.previews ∧ visible m r = true := by
  rw [shown_eq hd]
  split
  · next hdeleted => simp [hdeleted]
  · next hdeleted =>
    rw [mem_insertionSort, mem_filter]
    simp [hdeleted]

/-- Rewriting rows that a message does not show, into such rows, changes nothing of what it shows. -/
theorem shown_rewrite {d' : PreviewTables} {f : MessageLinkPreview → MessageLinkPreview}
    (hd : d.Linked) (hd' : d'.Linked) (hpreviews : d'.previews = d.previews.map f)
    {m m' : ChatMessage} (hm : m'.id = m.id ∧ m'.roomId = m.roomId ∧ m'.deleted = m.deleted)
    (hf : ∀ r ∈ d.previews, f r = r ∨ visible m r = false ∧ visible m (f r) = false) :
    d'.shown m' = d.shown m := by
  have hsame : ∀ r, visible m' r = visible m r := by
    intro r
    rw [visible, visible, hm.1, hm.2.1]
  have hfilter : (d.previews.map f).filter (visible m) = d.previews.filter (visible m) := by
    revert hf
    generalize d.previews = rows
    intro hf
    induction rows with
    | nil => rfl
    | cons r _ ih =>
      have hrest := ih fun r hr => hf r (.tail _ hr)
      rcases hf r (.head _) with heq | ⟨hbefore, hafter⟩
      · rw [map_cons, heq, filter_cons, filter_cons, hrest]
      · rw [map_cons, filter_cons, filter_cons, hbefore, hafter]
        exact hrest
  rw [shown_eq hd, shown_eq hd', hm.2.2, hpreviews, filter_congr fun r _ => hsame r, hfilter]

theorem allocateChangeSeq_eq_some {n : ℕ} {numbers : RoomRecord}
    (h : d.allocateChangeSeq room n = some numbers) :
    ∃ r, d.rooms room = some r ∧ numbers.lastChangeSeq = r.lastChangeSeq + n := by
  obtain ⟨r, hr, hnumbers⟩ := Option.bind_eq_some_iff.mp h
  refine ⟨r, hr, ?_⟩
  rw [RoomRecord.allocateChangeSeq] at hnumbers
  split at hnumbers
  · cases hnumbers
  · rw [← Option.some.inj hnumbers]

end PreviewTables

namespace PreviewService

variable {c : Unfolding} {s s' : PreviewService}
  {m' : ChatMessage} {g : ChatMessage → ChatMessage} {sent : Option ChatMessage}

/-! ## Messages -/

/-- **Messages that are sound.** -/
structure MessagesSound (s : PreviewService) : Prop where
  messages : (s.tables.messages.map fun m => m.id).Nodup
  drawn : ∀ m ∈ s.tables.messages, m.id < s.ids
  /-- The number of a message is one that its room has given out. -/
  numbered : ∀ m ∈ s.tables.messages, ∃ r, s.tables.rooms m.roomId = some r ∧
    m.changeSeq ≤ r.lastChangeSeq
  roots : ∀ m ∈ s.tables.messages, ∀ root ∈ m.threadRootId,
    ∃ x ∈ s.tables.messages, x.id = root ∧ x.roomId = m.roomId

theorem MessagesSound.message_eq {m : ChatMessage} (hs : s.MessagesSound)
    (hm : m ∈ s.tables.messages) (hm' : m' ∈ s.tables.messages) (h : m.id = m'.id) : m = m' :=
  inj_on_of_nodup_map hs.messages hm hm' h

/-- **What a step does to messages**: those that are there are written, and one may be sent. -/
structure Turns (s s' : PreviewService) (g : ChatMessage → ChatMessage)
    (sent : Option ChatMessage) : Prop where
  messages : s'.tables.messages = s.tables.messages.map g ++ sent.toList
  message : ∀ m, (g m).id = m.id ∧ (g m).roomId = m.roomId ∧ (g m).kind = m.kind ∧
    (g m).threadRootId = m.threadRootId
  ids : s.ids ≤ s'.ids
  rooms : ∀ id r, s.tables.rooms id = some r →
    ∃ r', s'.tables.rooms id = some r' ∧ r.lastChangeSeq ≤ r'.lastChangeSeq
  /-- A message that gets a number gets one that is new in its room. -/
  number : ∀ m ∈ s.tables.messages, (g m).changeSeq = m.changeSeq ∨
    ∃ r r', s.tables.rooms m.roomId = some r ∧ s'.tables.rooms m.roomId = some r' ∧
      r.lastChangeSeq < (g m).changeSeq ∧ (g m).changeSeq ≤ r'.lastChangeSeq
  sent : ∀ m ∈ sent, m.id = s.ids ∧ s.ids < s'.ids ∧
    (∃ r', s'.tables.rooms m.roomId = some r' ∧ m.changeSeq ≤ r'.lastChangeSeq) ∧
    ∀ root ∈ m.threadRootId, ∃ x ∈ s.tables.messages, x.id = root ∧ x.roomId = m.roomId

variable (h : Turns s s' g sent)
include h

/-- A number that a message gets is larger than the one that it had. -/
theorem Turns.lt_changeSeq {m : ChatMessage} (hs : s.MessagesSound) (hm : m ∈ s.tables.messages)
    (hne : (g m).changeSeq ≠ m.changeSeq) : m.changeSeq < (g m).changeSeq := by
  rcases h.number m hm with heq | ⟨r, r', hr, -, hlt, -⟩
  · exact absurd heq hne
  · obtain ⟨x, hx, hle⟩ := hs.numbered m hm
    obtain rfl := Option.some.inj (hr.symm.trans hx)
    exact hle.trans_lt hlt

theorem Turns.mem : m' ∈ s'.tables.messages ↔
      (∃ m ∈ s.tables.messages, g m = m') ∨ sent = some m' := by
  rw [h.messages, mem_append, mem_map, Option.mem_toList]

theorem Turns.sound (hs : s.MessagesSound) : s'.MessagesSound where
  messages := by
    have hsame : (s.tables.messages.map g).map (fun m => m.id) =
        s.tables.messages.map fun m => m.id := by
      rw [map_map]
      exact map_congr_left fun m _ => (h.message m).1
    rw [h.messages, map_append, hsame]
    cases hsent : sent with
    | none => simpa using hs.messages
    | some m =>
      refine nodup_append.mpr ⟨hs.messages, nodup_singleton _, fun id hid id' hid' heq => ?_⟩
      obtain ⟨x, hx, rfl⟩ := mem_map.mp hid
      obtain rfl : id' = m.id := by simpa using hid'
      exact absurd (hs.drawn x hx) (by rw [heq, (h.sent m hsent).1]; exact lt_irrefl _)
  drawn m' hm' := by
    rcases h.mem.mp hm' with ⟨m, hm, rfl⟩ | hsent
    · rw [(h.message m).1]
      exact (hs.drawn m hm).trans_le h.ids
    · rw [(h.sent m' hsent).1]
      exact (h.sent m' hsent).2.1
  numbered m' hm' := by
    rcases h.mem.mp hm' with ⟨m, hm, rfl⟩ | hsent
    · rw [(h.message m).2.1]
      rcases h.number m hm with heq | ⟨r, r', -, hr', -, hle⟩
      · obtain ⟨r, hr, hle⟩ := hs.numbered m hm
        obtain ⟨r', hr', hgrown⟩ := h.rooms m.roomId r hr
        exact ⟨r', hr', heq ▸ hle.trans hgrown⟩
      · exact ⟨r', hr', hle⟩
    · exact (h.sent m' hsent).2.2.1
  roots m' hm' root hroot := by
    have hkeeps : ∀ {room}, (∃ x ∈ s.tables.messages, x.id = root ∧ x.roomId = room) →
        ∃ x ∈ s'.tables.messages, x.id = root ∧ x.roomId = room := by
      rintro room ⟨x, hx, hid, hroom⟩
      exact ⟨g x, h.mem.mpr (.inl ⟨x, hx, rfl⟩), (h.message x).1.trans hid,
        (h.message x).2.1.trans hroom⟩
    rcases h.mem.mp hm' with ⟨m, hm, rfl⟩ | hsent
    · rw [(h.message m).2.1]
      exact hkeeps (hs.roots m hm root ((h.message m).2.2.2 ▸ hroot))
    · exact hkeeps ((h.sent m' hsent).2.2.2 root hroot)

/-! ## Rows -/

omit h

/-- **Rows that are sound**, for some unfolding. -/
structure Sound (c : Unfolding) (s : PreviewService) : Prop extends MessagesSound s where
  previews : (s.tables.previews.map fun r => r.id).Nodup
  linked : s.tables.Linked
  drawnPreviews : ∀ r ∈ s.tables.previews, r.id < s.ids
  ofMessage : ∀ r ∈ s.tables.previews, ∃ m ∈ s.tables.messages, m.id = r.messageId ∧
    m.roomId = r.roomId ∧ m.kind = .user ∧ m.deleted = false
  /-- A message has one row for a URL. -/
  once : ∀ r ∈ s.tables.previews, ∀ r' ∈ s.tables.previews, r.messageId = r'.messageId →
    r.url = r'.url → r = r'
  /-- The rows of what is in a body are in its order. -/
  positions : ∀ m ∈ s.tables.messages, ∀ r ∈ s.tables.previews, r.messageId = m.id →
    r.url ∈ c.candidates m.body → (c.candidates m.body)[r.position]? = some r.url
  covers : ∀ m ∈ s.tables.messages, m.kind = .user → m.deleted = false →
    ∀ u ∈ c.candidates m.body, ∃ r ∈ s.tables.previews, r.messageId = m.id ∧ r.url = u
  hiddenRow : ∀ r ∈ s.tables.previews, r.removedAt.isSome ↔ (r.messageId, r.url) ∈ s.hidden
  /-- What is hidden stays as a row, as long as the message is there. -/
  hiddenKept : ∀ h ∈ s.hidden, ∀ m ∈ s.tables.messages, m.id = h.1 → m.deleted = false →
    ∃ r ∈ s.tables.previews, r.messageId = h.1 ∧ r.url = h.2
  hiddenDrawn : ∀ h ∈ s.hidden, h.1 < s.ids

theorem Sound.preview_eq {r r' : MessageLinkPreview} (hs : s.Sound c) (hr : r ∈ s.tables.previews)
    (hr' : r' ∈ s.tables.previews) (h : r.id = r'.id) : r = r' :=
  inj_on_of_nodup_map hs.previews hr hr' h

/-- **Rows that stay** where they are, of messages that say what they said. -/
structure Rewrites (s s' : PreviewService) (f : MessageLinkPreview → MessageLinkPreview)
    (g : ChatMessage → ChatMessage) : Prop extends Turns s s' g none where
  same : ∀ m, (g m).body = m.body ∧ (g m).deleted = m.deleted
  previews : s'.tables.previews = s.tables.previews.map f
  row : ∀ r, (f r).id = r.id ∧ (f r).roomId = r.roomId ∧ (f r).messageId = r.messageId ∧
    (f r).url = r.url ∧ (f r).position = r.position
  linked : s.tables.Linked → s'.tables.Linked
  /-- What is hidden by the step: URLs of rows that are there. -/
  hidden : ∃ added, s'.hidden = s.hidden ++ added ∧
    (∀ h ∈ added, ∃ r ∈ s.tables.previews, r.messageId = h.1 ∧ r.url = h.2) ∧
    ∀ r ∈ s.tables.previews, (f r).removedAt.isSome ↔
      r.removedAt.isSome ∨ (r.messageId, r.url) ∈ added
  /-- **A row that does not wait any more** has what it will have. -/
  settled : ∀ r ∈ s.tables.previews, r.status ≠ .pending →
    (f r).status = r.status ∧ (f r).linkPreviewId = r.linkPreviewId
  /-- What a message shows changes with its number only. -/
  shown : ∀ m ∈ s.tables.messages, (∃ r ∈ s.tables.previews, f r ≠ r ∧
    (PreviewTables.visible m r = true ∨ PreviewTables.visible m (f r) = true)) →
      (g m).changeSeq ≠ m.changeSeq

theorem Rewrites.sound {f : MessageLinkPreview → MessageLinkPreview}
    (h : Rewrites s s' f g) (hs : s.Sound c) : s'.Sound c := by
  obtain ⟨added, hadded, hthere, hremoved⟩ := h.hidden
  have hmem : ∀ {x}, x ∈ s'.tables.previews → ∃ r ∈ s.tables.previews, f r = x := by
    intro x hx
    rw [h.previews] at hx
    exact mem_map.mp hx
  have hmem' : ∀ {r}, r ∈ s.tables.previews → f r ∈ s'.tables.previews := by
    intro r hr
    rw [h.previews]
    exact mem_map_of_mem hr
  have hmessage : ∀ {x}, x ∈ s'.tables.messages → ∃ m ∈ s.tables.messages, g m = x := by
    intro x hx
    exact (h.mem.mp hx).resolve_right (by simp)
  have hmessage' : ∀ {m}, m ∈ s.tables.messages → g m ∈ s'.tables.messages :=
    fun hm => h.mem.mpr (.inl ⟨_, hm, rfl⟩)
  refine ⟨h.toTurns.sound hs.toMessagesSound, ?_, h.linked hs.linked, ?_, ?_, ?_, ?_, ?_, ?_, ?_, ?_⟩
  · have hsame : (s.tables.previews.map f).map (fun r => r.id) =
        s.tables.previews.map fun r => r.id := by
      rw [map_map]
      exact map_congr_left fun r _ => (h.row r).1
    rw [h.previews, hsame]
    exact hs.previews
  · intro x hx
    obtain ⟨r, hr, rfl⟩ := hmem hx
    rw [(h.row r).1]
    exact (hs.drawnPreviews r hr).trans_le h.ids
  · intro x hx
    obtain ⟨r, hr, rfl⟩ := hmem hx
    obtain ⟨m, hm, hid, hroom, hkind, hlive⟩ := hs.ofMessage r hr
    refine ⟨g m, hmessage' hm, ?_, ?_, ?_, ?_⟩
    · rw [(h.message m).1, (h.row r).2.2.1, hid]
    · rw [(h.message m).2.1, (h.row r).2.1, hroom]
    · rw [(h.message m).2.2.1, hkind]
    · rw [(h.same m).2, hlive]
  · intro x hx x' hx' hid hurl
    obtain ⟨r, hr, rfl⟩ := hmem hx
    obtain ⟨r', hr', rfl⟩ := hmem hx'
    rw [(h.row r).2.2.1, (h.row r').2.2.1] at hid
    rw [(h.row r).2.2.2.1, (h.row r').2.2.2.1] at hurl
    rw [hs.once r hr r' hr' hid hurl]
  · intro y hy x hx hid
    obtain ⟨m, hm, rfl⟩ := hmessage hy
    obtain ⟨r, hr, rfl⟩ := hmem hx
    rw [(h.row r).2.2.1, (h.message m).1] at hid
    rw [(h.row r).2.2.2.1, (h.row r).2.2.2.2, (h.same m).1]
    exact hs.positions m hm r hr hid
  · intro y hy huser hlive u hu
    obtain ⟨m, hm, rfl⟩ := hmessage hy
    rw [(h.message m).2.2.1] at huser
    rw [(h.same m).2] at hlive
    rw [(h.same m).1] at hu
    obtain ⟨r, hr, hid, hurl⟩ := hs.covers m hm huser hlive u hu
    exact ⟨f r, hmem' hr, by rw [(h.row r).2.2.1, (h.message m).1, hid],
      (h.row r).2.2.2.1.trans hurl⟩
  · intro x hx
    obtain ⟨r, hr, rfl⟩ := hmem hx
    rw [(h.row r).2.2.1, (h.row r).2.2.2.1, hadded, mem_append, hremoved r hr, hs.hiddenRow r hr]
  · intro e he y hy hid hlive
    obtain ⟨m, hm, rfl⟩ := hmessage hy
    rw [(h.message m).1] at hid
    rw [(h.same m).2] at hlive
    have hrow : ∃ r ∈ s.tables.previews, r.messageId = e.1 ∧ r.url = e.2 := by
      rw [hadded] at he
      rcases mem_append.mp he with he | he
      · exact hs.hiddenKept e he m hm hid hlive
      · exact hthere e he
    obtain ⟨r, hr, hrid, hurl⟩ := hrow
    exact ⟨f r, hmem' hr, (h.row r).2.2.1.trans hrid, (h.row r).2.2.2.1.trans hurl⟩
  · intro e he
    rw [hadded] at he
    rcases mem_append.mp he with he | he
    · exact (hs.hiddenDrawn e he).trans_le h.ids
    · obtain ⟨r, hr, hid, -⟩ := hthere e he
      obtain ⟨m, hm, hmid, -⟩ := hs.ofMessage r hr
      rw [← hid, ← hmid]
      exact (hs.drawn m hm).trans_le h.ids

end PreviewService

end Hibari
