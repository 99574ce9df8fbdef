import Hibari.PreviewRows

/-!
# What keeps previews sound

A message is sent (`Sends`), edited (`Edits`) or deleted (`Deletes`), or rows are only rewritten: so
each step is one of four (`Effect`), and each of them keeps rows sound.
-/

namespace Hibari

open List

namespace PreviewTables

variable {d : PreviewTables} {m : ChatMessage} {r : MessageLinkPreview} {now position : ℕ} {id : Ulid}
  {url : List Char} {removedAt : Option ℕ}

/-! ## Rows that are made -/

/-- A row that is made is what was asked for, whatever was fetched. -/
theorem createPreview_same : (d.createPreview now id m url position removedAt).id = id ∧
    (d.createPreview now id m url position removedAt).roomId = m.roomId ∧
    (d.createPreview now id m url position removedAt).messageId = m.id ∧
    (d.createPreview now id m url position removedAt).url = url ∧
    (d.createPreview now id m url position removedAt).position = position ∧
    (d.createPreview now id m url position removedAt).removedAt = removedAt := by
  rw [createPreview]
  split
  · split <;> exact ⟨rfl, rfl, rfl, rfl, rfl, rfl⟩
  · exact ⟨rfl, rfl, rfl, rfl, rfl, rfl⟩

theorem exists_link_of_createPreview
    (h : (d.createPreview now id m url position removedAt).status = .ok) :
    ∃ l ∈ d.links, (d.createPreview now id m url position removedAt).linkPreviewId = some l.id := by
  rw [createPreview] at h ⊢
  split at h
  · next cached hcached =>
    split at h
    · next hok =>
      simp only [hcached, if_pos hok]
      exact ⟨cached, mem_of_findFresh hcached, rfl⟩
    · cases h
  · cases h

/-- The rows that are made of some places of a list. -/
def rowsOf (d : PreviewTables) (now : ℕ) (ids : Ulid) (m : ChatMessage)
    (removedAt : List Char → Option ℕ) (places : List (List Char × ℕ)) : List MessageLinkPreview :=
  places.map fun u => d.createPreview now (ids + u.2) m u.1 u.2 (removedAt u.1)

section rowsOf

variable {ids : Ulid} {removed : List Char → Option ℕ} {urls : List (List Char)}
  {places : List (List Char × ℕ)}

theorem mem_rowsOf (hplaces : places.Sublist urls.zipIdx)
    (h : r ∈ d.rowsOf now ids m removed places) : ∃ u ∈ places, urls[u.2]? = some u.1 ∧
      r = d.createPreview now (ids + u.2) m u.1 u.2 (removed u.1) := by
  obtain ⟨u, hu, rfl⟩ := mem_map.mp h
  exact ⟨u, hu, mem_zipIdx_iff_getElem?.mp (hplaces.subset hu), rfl⟩

/-- What is known of a row that is made: its id is new, its place that of its URL. -/
theorem of_mem_rowsOf (hplaces : places.Sublist urls.zipIdx)
    (h : r ∈ d.rowsOf now ids m removed places) : (∃ k, r.id = ids + k ∧ k < urls.length) ∧
      r.roomId = m.roomId ∧ r.messageId = m.id ∧ (r.url, r.position) ∈ places ∧
      urls[r.position]? = some r.url ∧ r.removedAt = removed r.url := by
  obtain ⟨u, hu, hplace, rfl⟩ := mem_rowsOf hplaces h
  refine ⟨⟨u.2, createPreview_same.1, (List.getElem?_eq_some_iff.mp hplace).1⟩,
    createPreview_same.2.1, createPreview_same.2.2.1, ?_, ?_, ?_⟩
  · rw [createPreview_same.2.2.2.1, createPreview_same.2.2.2.2.1]
    exact hu
  · rw [createPreview_same.2.2.2.1, createPreview_same.2.2.2.2.1]
    exact hplace
  · rw [createPreview_same.2.2.2.1]
    exact createPreview_same.2.2.2.2.2

theorem exists_mem_rowsOf {u : List Char × ℕ} (hu : u ∈ places) :
    ∃ r ∈ d.rowsOf now ids m removed places, r.messageId = m.id ∧ r.url = u.1 :=
  ⟨_, mem_map_of_mem hu, createPreview_same.2.2.1, createPreview_same.2.2.2.1⟩

theorem exists_mem_rowsOf_zipIdx (hurl : url ∈ urls) :
    ∃ r ∈ d.rowsOf now ids m removed urls.zipIdx, r.messageId = m.id ∧ r.url = url := by
  obtain ⟨k, hk⟩ := getElem?_of_mem hurl
  have hplace : (url, k) ∈ urls.zipIdx := mem_zipIdx_iff_getElem?.mpr hk
  exact exists_mem_rowsOf hplace

/-- The rows that are made have ids of their own. -/
theorem nodup_rowsOf (hplaces : places.Sublist urls.zipIdx) :
    ((d.rowsOf now ids m removed places).map fun r => r.id).Nodup := by
  have hids : (d.rowsOf now ids m removed places).map (fun r => r.id) =
      (places.map Prod.snd).map fun k => ids + k := by
    rw [rowsOf, map_map, map_map]
    exact map_congr_left fun u _ => createPreview_same.1
  rw [hids]
  have hindices : (places.map Prod.snd).Nodup := by
    refine (hplaces.map Prod.snd).nodup ?_
    rw [zipIdx_map_snd]
    exact nodup_range'
  exact hindices.map fun i j h => Nat.add_left_cancel h

/-- Of a URL one row is made, if the list has it once. -/
theorem rowsOf_once {r' : MessageLinkPreview} (hurls : urls.Nodup)
    (hplaces : places.Sublist urls.zipIdx) (hr : r ∈ d.rowsOf now ids m removed places)
    (hr' : r' ∈ d.rowsOf now ids m removed places) (h : r.url = r'.url) : r = r' := by
  obtain ⟨u, -, hplace, rfl⟩ := mem_rowsOf hplaces hr
  obtain ⟨u', -, hplace', rfl⟩ := mem_rowsOf hplaces hr'
  rw [createPreview_same.2.2.2.1, createPreview_same.2.2.2.1] at h
  have hsame : u.2 = u'.2 := (getElem?_inj (List.getElem?_eq_some_iff.mp hplace).1 hurls).mp
    (by rw [hplace, hplace', h])
  rw [h, hsame]

theorem linked_rowsOf (h : r ∈ d.rowsOf now ids m removed places) (hok : r.status = .ok) :
    ∃ l ∈ d.links, r.linkPreviewId = some l.id := by
  obtain ⟨u, -, rfl⟩ := mem_map.mp h
  exact exists_link_of_createPreview hok

end rowsOf

/-- The rows that an edit drops. -/
def dropped (m : ChatMessage) (urls : List (List Char)) (r : MessageLinkPreview) : Bool :=
  r.messageId = m.id && r.removedAt.isNone && notAny urls r.url

/-- Where an edit puts a row. -/
def placed (m : ChatMessage) (urls : List (List Char)) (r : MessageLinkPreview) :
    MessageLinkPreview :=
  if r.messageId = m.id then match urls.idxOf? r.url with
    | some i => { r with position := i }
    | none => r
  else r

theorem placed_same (m : ChatMessage) (urls : List (List Char)) (r : MessageLinkPreview) :
    (placed m urls r).id = r.id ∧ (placed m urls r).roomId = r.roomId ∧
    (placed m urls r).messageId = r.messageId ∧ (placed m urls r).url = r.url ∧
    (placed m urls r).status = r.status ∧ (placed m urls r).linkPreviewId = r.linkPreviewId ∧
    (placed m urls r).removedAt = r.removedAt := by
  rw [placed]
  split
  · split <;> exact ⟨rfl, rfl, rfl, rfl, rfl, rfl, rfl⟩
  · exact ⟨rfl, rfl, rfl, rfl, rfl, rfl, rfl⟩

theorem placed_of_ne {urls : List (List Char)} (h : r.messageId ≠ m.id) : placed m urls r = r :=
  if_neg h

theorem position_placed {urls : List (List Char)} (h : r.messageId = m.id) (hurl : r.url ∈ urls) :
    urls[(placed m urls r).position]? = some r.url := by
  obtain ⟨i, hi⟩ : ∃ i, urls.idxOf? r.url = some i :=
    Option.isSome_iff_exists.mp (isSome_idxOf?.mpr hurl)
  rw [placed, if_pos h, hi]
  show urls[i]? = some r.url
  obtain ⟨hlt, heq, -⟩ := idxOf?_eq_some_iff.mp hi
  exact List.getElem?_eq_some_iff.mpr ⟨hlt, by simpa using heq⟩

/-- The places of what is new in a body. -/
def newPlaces (d : PreviewTables) (m : ChatMessage) (urls : List (List Char)) :
    List (List Char × ℕ) :=
  urls.zipIdx.filter fun u => u.1 ∉ (d.previews.filter fun r => r.messageId = m.id).map fun r => r.url

theorem newPlaces_sublist (d : PreviewTables) (m : ChatMessage) (urls : List (List Char)) :
    (d.newPlaces m urls).Sublist urls.zipIdx := filter_sublist

/-- A URL is new if no row of the message has it. -/
theorem mem_newPlaces {urls : List (List Char)} {u : List Char × ℕ} :
    u ∈ d.newPlaces m urls ↔ urls[u.2]? = some u.1 ∧
      ∀ r ∈ d.previews, r.messageId = m.id → r.url ≠ u.1 := by
  rw [newPlaces, mem_filter, mem_zipIdx_iff_getElem?, decide_eq_true_eq, mem_map]
  refine and_congr_right fun _ => ⟨fun h r hr hid hurl => h ⟨r, ?_, hurl⟩, ?_⟩
  · exact mem_filter.mpr ⟨hr, decide_eq_true hid⟩
  · rintro h ⟨r, hr, hurl⟩
    obtain ⟨hr, hid⟩ := mem_filter.mp hr
    exact h r hr (of_decide_eq_true hid) hurl

/-- **The rows after an edit.** -/
theorem previews_syncPreviews (c : Unfolding) (now : ℕ) (ids : Ulid) (m : ChatMessage)
    (body : String) : (d.syncPreviews c now ids m body).previews =
      (d.previews.filter (fun r => !dropped m (c.candidates body) r) ++
        d.rowsOf now ids m (fun _ => none) (d.newPlaces m (c.candidates body))).map
          (placed m (c.candidates body)) := rfl

end PreviewTables

open PreviewTables

namespace PreviewService

variable {c : Unfolding} {s s' : PreviewService} {m : ChatMessage} {g : ChatMessage → ChatMessage}
  {suppressed : List (List Char)} {body : String}

/-! ## A message that is sent -/

/-- **A message is sent**, and its rows are made. -/
structure Sends (c : Unfolding) (s s' : PreviewService) (m : ChatMessage)
    (suppressed : List (List Char)) (g : ChatMessage → ChatMessage) : Prop
    extends Turns s s' g (some m) where
  same : ∀ x, (g x).body = x.body ∧ (g x).deleted = x.deleted
  user : m.kind = .user
  live : m.deleted = false
  links : s'.tables.links = s.tables.links
  previews : s'.tables.previews = s.tables.previews ++
    s.tables.rowsOf s.clock (s.ids + 1) m (fun u => if u ∈ suppressed then some s.clock else none)
      (c.candidates m.body).zipIdx
  hidden : s'.hidden = s.hidden ++
    ((c.candidates m.body).filter fun u => u ∈ suppressed).map fun u => (m.id, u)
  drawn : s.ids + 1 + (c.candidates m.body).length ≤ s'.ids

theorem Sends.ne (h : Sends c s s' m suppressed g) (hs : s.Sound c) {r : MessageLinkPreview}
    (hr : r ∈ s.tables.previews) : r.messageId ≠ m.id := by
  obtain ⟨x, hx, hid, -⟩ := hs.ofMessage r hr
  rw [← hid, (h.sent m rfl).1]
  exact (hs.drawn x hx).ne

theorem Sends.sound (h : Sends c s s' m suppressed g) (hs : s.Sound c) : s'.Sound c := by
  have hid : m.id = s.ids := (h.sent m rfl).1
  have hnew : m ∈ s'.tables.messages := h.mem.mpr (.inr rfl)
  have hkept : ∀ {x}, x ∈ s.tables.messages → g x ∈ s'.tables.messages :=
    fun hx => h.mem.mpr (.inl ⟨_, hx, rfl⟩)
  have hplaces : (c.candidates m.body).zipIdx.Sublist (c.candidates m.body).zipIdx :=
    List.Sublist.refl _
  have hrow : ∀ {x}, x ∈ s'.tables.previews ↔ x ∈ s.tables.previews ∨
      x ∈ s.tables.rowsOf s.clock (s.ids + 1) m
        (fun u => if u ∈ suppressed then some s.clock else none) (c.candidates m.body).zipIdx := by
    intro x
    rw [h.previews, mem_append]
  refine ⟨h.toTurns.sound hs.toMessagesSound, ?_, ?_, ?_, ?_, ?_, ?_, ?_, ?_, ?_, ?_⟩
  · rw [h.previews, map_append]
    refine nodup_append.mpr ⟨hs.previews, nodup_rowsOf hplaces, fun id hold id' hmade heq => ?_⟩
    obtain ⟨r, hr, rfl⟩ := mem_map.mp hold
    obtain ⟨r', hr', rfl⟩ := mem_map.mp hmade
    obtain ⟨⟨k, hk, -⟩, -⟩ := of_mem_rowsOf hplaces hr'
    have hlt := hs.drawnPreviews r hr
    rw [heq, hk] at hlt
    exact absurd hlt (Nat.not_lt.mpr (Nat.le_add_right_of_le (Nat.le_add_right _ _)))
  · intro r hr hok
    rw [h.links]
    rcases hrow.mp hr with hr | hr
    · exact hs.linked r hr hok
    · exact linked_rowsOf hr hok
  · intro r hr
    rcases hrow.mp hr with hr | hr
    · exact (hs.drawnPreviews r hr).trans_le h.ids
    · obtain ⟨⟨k, hk, hlt⟩, -⟩ := of_mem_rowsOf hplaces hr
      rw [hk]
      exact (Nat.add_lt_add_left hlt _).trans_le h.drawn
  · intro r hr
    rcases hrow.mp hr with hr | hr
    · obtain ⟨x, hx, hxid, hroom, hkind, hlive⟩ := hs.ofMessage r hr
      exact ⟨g x, hkept hx, (h.message x).1.trans hxid, (h.message x).2.1.trans hroom,
        (h.message x).2.2.1.trans hkind, (h.same x).2.trans hlive⟩
    · obtain ⟨-, hroom, hmessage, -⟩ := of_mem_rowsOf hplaces hr
      exact ⟨m, hnew, hmessage.symm, hroom.symm, h.user, h.live⟩
  · intro r hr r' hr' hsame hurl
    rcases hrow.mp hr with hr | hr
    · rcases hrow.mp hr' with hr' | hr'
      · exact hs.once r hr r' hr' hsame hurl
      · rw [(of_mem_rowsOf hplaces hr').2.2.1] at hsame
        exact absurd hsame (h.ne hs hr)
    · rcases hrow.mp hr' with hr' | hr'
      · rw [(of_mem_rowsOf hplaces hr).2.2.1] at hsame
        exact absurd hsame.symm (h.ne hs hr')
      · exact rowsOf_once (LinkUrls.nodup_candidates _) hplaces hr hr' hurl
  · intro y hy r hr hmessage
    rcases hrow.mp hr with hr | hr
    · rcases h.mem.mp hy with ⟨x, hx, rfl⟩ | heq
      · rw [(h.same x).1]
        exact hs.positions x hx r hr (hmessage.trans (h.message x).1)
      · cases heq
        exact absurd hmessage (h.ne hs hr)
    · obtain ⟨-, -, hof, -, hplace, -⟩ := of_mem_rowsOf hplaces hr
      obtain rfl := (h.toTurns.sound hs.toMessagesSound).message_eq hnew hy
        (hof.symm.trans hmessage)
      exact fun _ => hplace
  · intro y hy huser hlive u hu
    rcases h.mem.mp hy with ⟨x, hx, rfl⟩ | heq
    · rw [(h.same x).1] at hu
      obtain ⟨r, hr, hof, hurl⟩ := hs.covers x hx ((h.message x).2.2.1 ▸ huser)
        ((h.same x).2 ▸ hlive) u hu
      exact ⟨r, hrow.mpr (.inl hr), hof.trans (h.message x).1.symm, hurl⟩
    · cases heq
      obtain ⟨r, hr, hof, hurl⟩ := exists_mem_rowsOf_zipIdx hu
      exact ⟨r, hrow.mpr (.inr hr), hof, hurl⟩
  · intro r hr
    rw [h.hidden, mem_append]
    rcases hrow.mp hr with hr | hr
    · refine (hs.hiddenRow r hr).trans ⟨.inl, fun h' => h'.resolve_right fun hmem => ?_⟩
      obtain ⟨u, -, heq⟩ := mem_map.mp hmem
      exact h.ne hs hr (congrArg Prod.fst heq).symm
    · obtain ⟨-, -, hof, -, hplace, hremoved⟩ := of_mem_rowsOf hplaces hr
      have hurl : r.url ∈ c.candidates m.body := mem_of_getElem? hplace
      rw [hremoved, hof]
      constructor
      · intro hsome
        refine .inr (mem_map.mpr ⟨r.url, mem_filter.mpr ⟨hurl, ?_⟩, rfl⟩)
        refine decide_eq_true (by_contra fun hnot => ?_)
        rw [if_neg hnot] at hsome
        cases hsome
      · rintro (hold | hmem)
        · exact absurd (hs.hiddenDrawn _ hold) (by rw [hid]; exact lt_irrefl _)
        · obtain ⟨u, hu, heq⟩ := mem_map.mp hmem
          obtain rfl : u = r.url := congrArg Prod.snd heq
          rw [if_pos (of_decide_eq_true (mem_filter.mp hu).2)]
          rfl
  · intro e he y hy hof hlive
    rw [h.hidden, mem_append] at he
    rcases he with he | he
    · rcases h.mem.mp hy with ⟨x, hx, rfl⟩ | heq
      · obtain ⟨r, hr, hrow'⟩ := hs.hiddenKept e he x hx ((h.message x).1 ▸ hof)
          ((h.same x).2 ▸ hlive)
        exact ⟨r, hrow.mpr (.inl hr), hrow'⟩
      · cases heq
        exact absurd (hs.hiddenDrawn e he) (by rw [← hof, hid]; exact lt_irrefl _)
    · obtain ⟨u, hu, rfl⟩ := mem_map.mp he
      obtain ⟨r, hr, hof', hurl⟩ :=
        exists_mem_rowsOf_zipIdx (mem_filter.mp hu).1
      exact ⟨r, hrow.mpr (.inr hr), hof', hurl⟩
  · intro e he
    rw [h.hidden, mem_append] at he
    rcases he with he | he
    · exact (hs.hiddenDrawn e he).trans_le h.ids
    · obtain ⟨u, -, rfl⟩ := mem_map.mp he
      rw [hid]
      exact (h.sent m rfl).2.1

/-! ## A message that is edited -/

/-- **A message is edited**: its rows are made, dropped and put in order. -/
structure Edits (c : Unfolding) (s s' : PreviewService) (m : ChatMessage) (body : String)
    (g : ChatMessage → ChatMessage) : Prop extends Turns s s' g none where
  there : m ∈ s.tables.messages
  user : m.kind = .user
  live : m.deleted = false
  deleted : ∀ x, (g x).deleted = x.deleted
  bodies : ∀ x, (g x).body = if x.id = m.id then body else x.body
  changed : (g m).changeSeq ≠ m.changeSeq
  links : s'.tables.links = s.tables.links
  previews : s'.tables.previews = (s.tables.syncPreviews c s.clock s.ids m body).previews
  hidden : s'.hidden = s.hidden
  drawn : s.ids + (c.candidates body).length ≤ s'.ids

/-- A row after an edit was there and is not dropped, or it is new. -/
theorem Edits.mem_previews (h : Edits c s s' m body g) {x : MessageLinkPreview} :
    x ∈ s'.tables.previews ↔ ∃ r, PreviewTables.placed m (c.candidates body) r = x ∧
      (r ∈ s.tables.previews ∧ PreviewTables.dropped m (c.candidates body) r = false ∨
        r ∈ s.tables.rowsOf s.clock s.ids m (fun _ => none)
          (s.tables.newPlaces m (c.candidates body))) := by
  rw [h.previews, previews_syncPreviews, mem_map]
  refine exists_congr fun r => and_comm.trans (and_congr_right fun _ => ?_)
  rw [mem_append, mem_filter, Bool.not_eq_true']

/-- A URL that is new has no row. -/
theorem Edits.of_mem_new {r : MessageLinkPreview}
    (hr : r ∈ s.tables.rowsOf s.clock s.ids m (fun _ => none)
      (s.tables.newPlaces m (c.candidates body))) :
    (∃ k, r.id = s.ids + k ∧ k < (c.candidates body).length) ∧ r.roomId = m.roomId ∧
      r.messageId = m.id ∧ r.url ∈ c.candidates body ∧ r.removedAt = none ∧
      ∀ r' ∈ s.tables.previews, r'.messageId = m.id → r'.url ≠ r.url := by
  obtain ⟨hid, hroom, hof, hplace, hat, hremoved⟩ :=
    of_mem_rowsOf (s.tables.newPlaces_sublist m _) hr
  exact ⟨hid, hroom, hof, mem_of_getElem? hat, hremoved, (mem_newPlaces.mp hplace).2⟩

/-- What is removed, and what is in the body, is not dropped. -/
theorem not_dropped {urls : List (List Char)} {r : MessageLinkPreview}
    (h : r.messageId ≠ m.id ∨ r.removedAt.isSome ∨ r.url ∈ urls) :
    PreviewTables.dropped m urls r = false := by
  rw [PreviewTables.dropped, Bool.and_eq_false_iff, Bool.and_eq_false_iff]
  rcases h with h | h | h
  · exact .inl (.inl (decide_eq_false h))
  · refine .inl (.inr ?_)
    rw [Option.isNone_eq_false_iff]
    exact h
  · refine .inr ?_
    rw [PreviewTables.notAny, Bool.and_eq_false_iff]
    exact .inr (decide_eq_false (not_not_intro h))

theorem Edits.sound (h : Edits c s s' m body g) (hs : s.Sound c) : s'.Sound c := by
  have hmessage : ∀ {y}, y ∈ s'.tables.messages → ∃ x ∈ s.tables.messages, g x = y :=
    fun hy => (h.toTurns.mem.mp hy).resolve_right (by simp)
  have hkept : ∀ {x}, x ∈ s.tables.messages → g x ∈ s'.tables.messages :=
    fun hx => h.toTurns.mem.mpr (.inl ⟨_, hx, rfl⟩)
  have hsame := placed_same m (c.candidates body)
  refine ⟨h.toTurns.sound hs.toMessagesSound, ?_, ?_, ?_, ?_, ?_, ?_, ?_, ?_, ?_, ?_⟩
  · have hids : s'.tables.previews.map (fun r => r.id) = (s.tables.previews.filter fun r =>
          !PreviewTables.dropped m (c.candidates body) r).map (fun r => r.id) ++
        (s.tables.rowsOf s.clock s.ids m (fun _ => none)
          (s.tables.newPlaces m (c.candidates body))).map fun r => r.id := by
      rw [h.previews, previews_syncPreviews, map_map, ← map_append]
      exact map_congr_left fun r _ => (hsame r).1
    rw [hids]
    refine nodup_append.mpr ⟨(filter_sublist.map _).nodup hs.previews,
      nodup_rowsOf (s.tables.newPlaces_sublist m _), fun id hold id' hmade heq => ?_⟩
    obtain ⟨r, hr, rfl⟩ := mem_map.mp hold
    obtain ⟨r', hr', rfl⟩ := mem_map.mp hmade
    obtain ⟨⟨k, hk, -⟩, -⟩ := Edits.of_mem_new hr'
    have hlt := hs.drawnPreviews r (mem_of_mem_filter hr)
    rw [heq, hk] at hlt
    exact absurd hlt (Nat.not_lt.mpr (Nat.le_add_right _ _))
  · intro x hx hok
    obtain ⟨r, rfl, hr⟩ := h.mem_previews.mp hx
    rw [(hsame r).2.2.2.2.1] at hok
    rw [h.links, (hsame r).2.2.2.2.2.1]
    rcases hr with ⟨hr, -⟩ | hr
    · exact hs.linked r hr hok
    · exact linked_rowsOf hr hok
  · intro x hx
    obtain ⟨r, rfl, hr⟩ := h.mem_previews.mp hx
    rw [(hsame r).1]
    rcases hr with ⟨hr, -⟩ | hr
    · exact (hs.drawnPreviews r hr).trans_le h.ids
    · obtain ⟨⟨k, hk, hlt⟩, -⟩ := Edits.of_mem_new hr
      rw [hk]
      exact (Nat.add_lt_add_left hlt _).trans_le h.drawn
  · intro x hx
    obtain ⟨r, rfl, hr⟩ := h.mem_previews.mp hx
    rw [(hsame r).2.1, (hsame r).2.2.1]
    rcases hr with ⟨hr, -⟩ | hr
    · obtain ⟨x, hx, hxid, hroom, hkind, hlive⟩ := hs.ofMessage r hr
      exact ⟨g x, hkept hx, (h.message x).1.trans hxid, (h.message x).2.1.trans hroom,
        (h.message x).2.2.1.trans hkind, (h.deleted x).trans hlive⟩
    · obtain ⟨-, hroom, hof, -⟩ := Edits.of_mem_new hr
      exact ⟨g m, hkept h.there, (h.message m).1.trans hof.symm, (h.message m).2.1.trans hroom.symm,
        (h.message m).2.2.1.trans h.user, (h.deleted m).trans h.live⟩
  · intro x hx x' hx' hid hurl
    obtain ⟨r, rfl, hr⟩ := h.mem_previews.mp hx
    obtain ⟨r', rfl, hr'⟩ := h.mem_previews.mp hx'
    rw [(hsame r).2.2.1, (hsame r').2.2.1] at hid
    rw [(hsame r).2.2.2.1, (hsame r').2.2.2.1] at hurl
    have hrows : r = r' := by
      rcases hr with ⟨hr, -⟩ | hr
      · rcases hr' with ⟨hr', -⟩ | hr'
        · exact hs.once r hr r' hr' hid hurl
        · obtain ⟨-, -, hof, -, -, hnone⟩ := Edits.of_mem_new hr'
          exact absurd hurl (hnone r hr (hid.trans hof))
      · rcases hr' with ⟨hr', -⟩ | hr'
        · obtain ⟨-, -, hof, -, -, hnone⟩ := Edits.of_mem_new hr
          exact absurd hurl.symm (hnone r' hr' (hid.symm.trans hof))
        · exact rowsOf_once (LinkUrls.nodup_candidates _)
            (s.tables.newPlaces_sublist m _) hr hr' hurl
    rw [hrows]
  · intro y hy x hx hof hurl
    obtain ⟨z, hz, rfl⟩ := hmessage hy
    obtain ⟨r, rfl, hr⟩ := h.mem_previews.mp hx
    rw [(hsame r).2.2.1, (h.message z).1] at hof
    rw [(hsame r).2.2.2.1] at hurl ⊢
    rw [h.bodies] at hurl ⊢
    by_cases hid : z.id = m.id
    · rw [if_pos hid] at hurl ⊢
      exact position_placed (hof.trans hid) hurl
    · rw [if_neg hid] at hurl ⊢
      rw [placed_of_ne fun heq => hid (hof.symm.trans heq)]
      rcases hr with ⟨hr, -⟩ | hr
      · exact hs.positions z hz r hr hof hurl
      · exact absurd (hof.symm.trans (Edits.of_mem_new hr).2.2.1) hid
  · intro y hy huser hlive u hu
    obtain ⟨z, hz, rfl⟩ := hmessage hy
    rw [h.bodies] at hu
    rw [(h.message z).1]
    by_cases hid : z.id = m.id
    · rw [if_pos hid] at hu
      rw [hid]
      by_cases hrow : ∃ r ∈ s.tables.previews, r.messageId = m.id ∧ r.url = u
      · obtain ⟨r, hr, hof, rfl⟩ := hrow
        exact ⟨_, h.mem_previews.mpr ⟨r, rfl, .inl ⟨hr, not_dropped (.inr (.inr hu))⟩⟩,
          (hsame r).2.2.1.trans hof, (hsame r).2.2.2.1⟩
      · obtain ⟨k, hk⟩ := getElem?_of_mem hu
        have hplace : (u, k) ∈ s.tables.newPlaces m (c.candidates body) :=
          mem_newPlaces.mpr ⟨hk, fun r hr hof hurl => hrow ⟨r, hr, hof, hurl⟩⟩
        obtain ⟨r, hr, hof, hurl⟩ := exists_mem_rowsOf hplace
        exact ⟨_, h.mem_previews.mpr ⟨r, rfl, .inr hr⟩, (hsame r).2.2.1.trans hof,
          (hsame r).2.2.2.1.trans hurl⟩
    · rw [if_neg hid] at hu
      obtain ⟨r, hr, hof, hurl⟩ := hs.covers z hz ((h.message z).2.2.1 ▸ huser)
        (h.deleted z ▸ hlive) u hu
      exact ⟨_, h.mem_previews.mpr ⟨r, rfl,
          .inl ⟨hr, not_dropped (.inl fun heq => hid (hof.symm.trans heq))⟩⟩,
        (hsame r).2.2.1.trans hof, (hsame r).2.2.2.1.trans hurl⟩
  · intro x hx
    obtain ⟨r, rfl, hr⟩ := h.mem_previews.mp hx
    rw [h.hidden, (hsame r).2.2.1, (hsame r).2.2.2.1, (hsame r).2.2.2.2.2.2]
    rcases hr with ⟨hr, -⟩ | hr
    · exact hs.hiddenRow r hr
    · obtain ⟨-, -, hof, -, hremoved, hnone⟩ := Edits.of_mem_new hr
      rw [hremoved]
      refine ⟨fun hsome => absurd hsome (by simp), fun hhidden => ?_⟩
      -- what is hidden of the message has a row, so it is not new
      obtain ⟨r', hr', hof', hurl⟩ := hs.hiddenKept _ hhidden m h.there hof.symm h.live
      exact absurd hurl (hnone r' hr' (hof'.trans hof))
  · intro e he y hy hof hlive
    rw [h.hidden] at he
    obtain ⟨z, hz, rfl⟩ := hmessage hy
    obtain ⟨r, hr, hrid, hurl⟩ := hs.hiddenKept e he z hz ((h.message z).1 ▸ hof)
      (h.deleted z ▸ hlive)
    have hremoved : r.removedAt.isSome := (hs.hiddenRow r hr).mpr (by rw [hrid, hurl]; exact he)
    exact ⟨_, h.mem_previews.mpr ⟨r, rfl, .inl ⟨hr, not_dropped (.inr (.inl hremoved))⟩⟩,
      (hsame r).2.2.1.trans hrid, (hsame r).2.2.2.1.trans hurl⟩
  · intro e he
    rw [h.hidden] at he
    exact (hs.hiddenDrawn e he).trans_le h.ids

/-! ## A message that is deleted -/

/-- **A message is deleted**, and its rows are dropped. -/
structure Deletes (s s' : PreviewService) (m : ChatMessage) (g : ChatMessage → ChatMessage) : Prop
    extends Turns s s' g none where
  there : m ∈ s.tables.messages
  deleted : ∀ x, (g x).deleted = if x.id = m.id then true else x.deleted
  bodies : ∀ x, x.id ≠ m.id → (g x).body = x.body
  changed : (g m).changeSeq ≠ m.changeSeq
  links : s'.tables.links = s.tables.links
  previews : s'.tables.previews = s.tables.previews.filter fun r => r.messageId ≠ m.id
  hidden : s'.hidden = s.hidden

theorem Deletes.sound (h : Deletes s s' m g) (hs : s.Sound c) : s'.Sound c := by
  have hmessage : ∀ {y}, y ∈ s'.tables.messages → ∃ x ∈ s.tables.messages, g x = y :=
    fun hy => (h.toTurns.mem.mp hy).resolve_right (by simp)
  have hkept : ∀ {x}, x ∈ s.tables.messages → g x ∈ s'.tables.messages :=
    fun hx => h.toTurns.mem.mpr (.inl ⟨_, hx, rfl⟩)
  have hrow : ∀ {r}, r ∈ s'.tables.previews ↔ r ∈ s.tables.previews ∧ r.messageId ≠ m.id := by
    intro r
    rw [h.previews, mem_filter, decide_eq_true_eq]
  have hlives : ∀ {x}, (g x).deleted = false → x.id ≠ m.id ∧ x.deleted = false := by
    intro x hlive
    rw [h.deleted] at hlive
    split at hlive
    · cases hlive
    · next hne => exact ⟨hne, hlive⟩
  refine ⟨h.toTurns.sound hs.toMessagesSound, ?_, ?_, ?_, ?_, ?_, ?_, ?_, ?_, ?_, ?_⟩
  · rw [h.previews]
    exact (filter_sublist.map _).nodup hs.previews
  · intro r hr hok
    rw [h.links]
    exact hs.linked r (hrow.mp hr).1 hok
  · intro r hr
    exact (hs.drawnPreviews r (hrow.mp hr).1).trans_le h.ids
  · intro r hr
    obtain ⟨hr, hne⟩ := hrow.mp hr
    obtain ⟨x, hx, hxid, hroom, hkind, hlive⟩ := hs.ofMessage r hr
    refine ⟨g x, hkept hx, (h.message x).1.trans hxid, (h.message x).2.1.trans hroom,
      (h.message x).2.2.1.trans hkind, ?_⟩
    rw [h.deleted, if_neg fun heq => hne (hxid.symm.trans heq), hlive]
  · intro r hr r' hr'
    exact hs.once r (hrow.mp hr).1 r' (hrow.mp hr').1
  · intro y hy r hr hof
    obtain ⟨z, hz, rfl⟩ := hmessage hy
    obtain ⟨hr, hne⟩ := hrow.mp hr
    rw [(h.message z).1] at hof
    rw [h.bodies z fun heq => hne (hof.trans heq)]
    exact hs.positions z hz r hr hof
  · intro y hy huser hlive u hu
    obtain ⟨z, hz, rfl⟩ := hmessage hy
    obtain ⟨hne, hlive⟩ := hlives hlive
    rw [h.bodies z hne] at hu
    obtain ⟨r, hr, hof, hurl⟩ := hs.covers z hz ((h.message z).2.2.1 ▸ huser) hlive u hu
    exact ⟨r, hrow.mpr ⟨hr, hof ▸ hne⟩, hof.trans (h.message z).1.symm, hurl⟩
  · intro r hr
    rw [h.hidden]
    exact hs.hiddenRow r (hrow.mp hr).1
  · intro e he y hy hof hlive
    rw [h.hidden] at he
    obtain ⟨z, hz, rfl⟩ := hmessage hy
    obtain ⟨hne, hlive⟩ := hlives hlive
    rw [(h.message z).1] at hof
    obtain ⟨r, hr, hrid, hurl⟩ := hs.hiddenKept e he z hz hof hlive
    exact ⟨r, hrow.mpr ⟨hr, by rw [hrid, ← hof]; exact hne⟩, hrid, hurl⟩
  · intro e he
    rw [h.hidden] at he
    exact (hs.hiddenDrawn e he).trans_le h.ids

end PreviewService

end Hibari
