import Hibari.PreviewEffects

/-!
# Previews mirror the body

The rows of a message are those of its body and of what its author has hidden, and it shows those of
its body that are not hidden and of which something was fetched, in their order. All of this holds as
long as no edit takes away the last URL that is unfolded: the list of the URLs to keep is then empty,
nothing is dropped for it, and the message goes on to show what its body has no more
(`shown_after_edit`).
-/

/-- What is at growing places of a list is a part of it, in its order. -/
theorem List.map_sublist_of_positions {α β : Type*} {l : List α} {p : α → ℕ} {u : α → β}
    {xs : List β} (hl : l.Pairwise fun a b => p a < p b) (hc : ∀ a ∈ l, xs[p a]? = some (u a)) :
    (l.map u).Sublist xs := by
  suffices h : ∀ k, (∀ a ∈ l, k ≤ p a) → (l.map u).Sublist (xs.drop k) by
    simpa using h 0 fun a _ => Nat.zero_le _
  induction l with
  | nil => exact fun k _ => nil_sublist _
  | cons a l ih =>
    intro k hk
    obtain ⟨hfirst, hrest⟩ := pairwise_cons.mp hl
    obtain ⟨hlt, heq⟩ := List.getElem?_eq_some_iff.mp (hc a (.head _))
    have hcons : (u a :: l.map u).Sublist (u a :: xs.drop (p a + 1)) :=
      List.Sublist.cons_cons _ (ih hrest (fun b hb => hc b (.tail _ hb)) _ hfirst)
    have hdrop : xs.drop (p a) = u a :: xs.drop (p a + 1) := by
      rw [drop_eq_getElem_cons hlt, heq]
    rw [← hdrop] at hcons
    exact hcons.trans (drop_sublist_drop_left xs (hk a (.head _)))

namespace Hibari

open List Option PreviewTables

namespace PreviewService

variable {c : Unfolding} {s s' : PreviewService} {a : PreviewAction} {m m' : ChatMessage}
  {i : ℕ} {claimed : ClaimedPreview} {link : Option Ulid} {x : ChatMessage}
    {e : Ulid × List Char} {P : PreviewService → PreviewAction → Prop}

/-! ## Workers -/

theorem Ready.of_set (hs : s.Ready) {w : PreviewWorker} (h : .complete claimed .ok link ∈ s.workers.set i w)
    (hw : w ≠ .complete claimed .ok link) : link.isSome :=
  hs claimed link ((mem_or_eq_of_mem_set h).resolve_right fun heq => hw heq.symm)

theorem Ready.act (hs : s.Ready) (h : s.act c a = some s') : s'.Ready := by
  intro claimed link hmem
  cases a with
  | sendMessage =>
    refine hs claimed link ?_
    rw [PreviewService.act, sendMessage] at h
    split at h
    · cases h
    · split at h
      · obtain ⟨numbers, -, rfl⟩ := map_eq_some_iff.mp h
        exact hmem
      · obtain ⟨x, -, h⟩ := bind_eq_some_iff.mp h
        split at h
        · obtain ⟨numbers, -, rfl⟩ := map_eq_some_iff.mp h
          exact hmem
        · cases h
  | editMessage =>
    refine hs claimed link ?_
    rw [PreviewService.act, editMessage] at h
    split at h
    · cases h
    · obtain ⟨m, -, h⟩ := bind_eq_some_iff.mp h
      split at h
      · cases h
      · obtain ⟨numbers, -, rfl⟩ := map_eq_some_iff.mp h
        exact hmem
  | removeLinkPreview =>
    refine hs claimed link ?_
    obtain ⟨m, -, h⟩ := bind_eq_some_iff.mp h
    split at h
    · cases h
    · obtain ⟨row, -, h⟩ := bind_eq_some_iff.mp h
      split at h
      · cases h
      · simp only at h
        split at h
        · rw [← some.inj h] at hmem
          exact hmem
        · obtain ⟨numbers, -, rfl⟩ := map_eq_some_iff.mp h
          exact hmem
  | deleteMessage =>
    refine hs claimed link ?_
    obtain ⟨m, -, h⟩ := bind_eq_some_iff.mp h
    split at h
    · cases h
    · obtain ⟨numbers, -, rfl⟩ := map_eq_some_iff.mp h
      exact hmem
  | claim =>
    obtain ⟨row, -, rfl⟩ := map_eq_some_iff.mp h
    rcases mem_append.mp hmem with hold | hnew
    · exact hs claimed link hold
    · cases mem_singleton.mp hnew
  | resolve =>
    rw [PreviewService.act, resolve] at h
    split at h
    · split at h
      · split at h
        · split at h <;> rw [← some.inj h] at hmem
          · refine (mem_or_eq_of_mem_set hmem).elim (hs claimed link) fun heq => ?_
            rw [(PreviewWorker.complete.inj heq).2.2]
            rfl
          · exact hs.of_set hmem (by simp)
        · rw [← some.inj h] at hmem
          exact hs.of_set hmem (by simp)
      · rw [← some.inj h] at hmem
        exact hs.of_set hmem (by simp)
    · cases h
  | fetch =>
    rw [PreviewService.act, fetch] at h
    split at h
    · split at h <;> rw [← some.inj h] at hmem
      · refine (mem_or_eq_of_mem_set hmem).elim (hs claimed link) fun heq => ?_
        rw [(PreviewWorker.complete.inj heq).2.2]
        rfl
      · exact hs.of_set hmem (by simp)
      · exact hs.of_set hmem (by simp)
    · cases h
  | complete =>
    rw [PreviewService.act, complete] at h
    split at h
    · split at h <;> rw [← some.inj h] at hmem <;> exact hs.of_set hmem (by simp)
    · cases h
  | fail =>
    rw [PreviewService.act] at h
    split at h
    · rw [← some.inj h] at hmem
      exact hs.of_set hmem (by simp)
    · cases h
  | touch =>
    obtain ⟨m, -, h⟩ := bind_eq_some_iff.mp h
    obtain ⟨numbers, -, rfl⟩ := map_eq_some_iff.mp h
    exact hs claimed link hmem
  | archive =>
    obtain ⟨r, -, rfl⟩ := map_eq_some_iff.mp h
    exact hs claimed link hmem
  | tick =>
    rw [← some.inj h] at hmem
    exact hs claimed link hmem
  | _ =>
    rw [PreviewService.act] at h
    split at h
    · rw [← some.inj h] at hmem
      exact hs claimed link hmem
    · cases h

/-! ## What a message shows -/

/-- The rows of a message. -/
def rows (s : PreviewService) (message : Ulid) : List MessageLinkPreview :=
  s.tables.previews.filter fun r => r.messageId = message

/-- What a message shows depends on its rows only. -/
theorem shown_of_rows (hd : s.tables.Linked) (hd' : s'.tables.Linked)
    (hm : m'.id = m.id ∧ m'.roomId = m.roomId ∧ m'.deleted = m.deleted)
    (h : s'.rows m.id = s.rows m.id) : s'.tables.shown m' = s.tables.shown m := by
  have hvisible : ∀ t : PreviewService, t.tables.previews.filter (PreviewTables.visible m) =
      (t.rows m.id).filter (PreviewTables.visible m) := by
    intro t
    rw [rows, List.filter_filter]
    refine filter_congr fun r _ => ?_
    by_cases hr : PreviewTables.visible m r = true
    · rw [hr, Bool.true_and]
      exact (decide_eq_true (of_decide_eq_true hr).2.1).symm
    · rw [Bool.eq_false_iff.mpr hr, Bool.false_and]
  have hsame : PreviewTables.visible m' = PreviewTables.visible m := by
    funext r
    rw [PreviewTables.visible, PreviewTables.visible, hm.1, hm.2.1]
  rw [shown_eq hd, shown_eq hd', hm.2.2, hsame, hvisible s', hvisible s, h]

/-- Rows of others are not of a message. -/
theorem filter_rowsOf {d : PreviewTables} {now : ℕ} {ids : Ulid}
    {removed : List Char → Option ℕ} {places : List (List Char × ℕ)} (hne : x.id ≠ m.id) :
    (d.rowsOf now ids x removed places).filter (fun r => r.messageId = m.id) = [] := by
  refine filter_eq_nil_iff.mpr fun r hr => ?_
  obtain ⟨u, -, rfl⟩ := List.mem_map.mp hr
  rw [createPreview_same.2.2.1]
  exact fun h => hne (of_decide_eq_true h)

theorem Edits.rows_of_ne {body : String} {g : ChatMessage → ChatMessage}
    (h : Edits c s s' x body g) (hne : x.id ≠ m.id) : s'.rows m.id = s.rows m.id := by
  have hplaced : ∀ rows : List MessageLinkPreview,
      (rows.map (PreviewTables.placed x (c.candidates body))).filter (fun r => r.messageId = m.id) =
        (rows.filter fun r => r.messageId = m.id).map
          (PreviewTables.placed x (c.candidates body)) := by
    intro rows
    rw [List.filter_map]
    refine congrArg _ (filter_congr fun r _ => ?_)
    show decide ((PreviewTables.placed x _ r).messageId = m.id) = decide (r.messageId = m.id)
    rw [(placed_same x _ r).2.2.1]
  rw [rows, h.previews, previews_syncPreviews, hplaced, filter_append,
    filter_rowsOf hne, append_nil, List.filter_filter, rows]
  have hkept : s.tables.previews.filter (fun r => decide (r.messageId = m.id) &&
      !PreviewTables.dropped x (c.candidates body) r) =
      s.tables.previews.filter fun r => decide (r.messageId = m.id) := by
    refine filter_congr fun r _ => ?_
    by_cases hr : r.messageId = m.id
    · rw [not_dropped (.inl fun heq => hne (heq.symm.trans hr)), Bool.not_false, Bool.and_true]
    · rw [decide_eq_false hr, Bool.false_and]
  rw [hkept]
  refine (map_congr_left fun r hr => ?_).trans (List.map_id _)
  refine placed_of_ne fun heq => hne (heq.symm.trans ?_)
  exact of_decide_eq_true (mem_filter.mp hr).2

variable (h : Effect c s s' a)
include h

/-- **What a message shows changes with its number only.** -/
theorem Effect.lt_changeSeq (hs : s.Sound c) (hm : m ∈ s.tables.messages)
    (hm' : m' ∈ s'.tables.messages) (hid : m'.id = m.id)
    (hne : s'.tables.shown m' ≠ s.tables.shown m) : m.changeSeq < m'.changeSeq := by
  have hs' := h.sound hs
  -- the message after the step is the one before it, written
  have hwritten : ∀ {g sent}, Turns s s' g sent → m' = g m := by
    intro g sent hturns
    exact hs'.message_eq hm' (hturns.mem.mpr (.inl ⟨m, hm, rfl⟩))
      (hid.trans (hturns.message m).1.symm)
  cases h with
  | @sent _ _ _ _ x g h =>
    obtain rfl := hwritten h.toTurns
    have hother : x.id ≠ m.id := by
      rw [(h.sent x rfl).1]
      exact (hs.drawn m hm).ne'
    refine absurd (shown_of_rows hs.linked hs'.linked ⟨hid, (h.message m).2.1, (h.same m).2⟩ ?_) hne
    rw [rows, h.previews, filter_append, filter_rowsOf hother, append_nil]
    rfl
  | @edited _ _ _ body x g _ h =>
    obtain rfl := hwritten h.toTurns
    by_cases hx : x.id = m.id
    · obtain rfl := hs.message_eq h.there hm hx
      exact h.toTurns.lt_changeSeq hs.toMessagesSound hm h.changed
    · exact absurd (shown_of_rows hs.linked hs'.linked ⟨hid, (h.message m).2.1, h.deleted m⟩
        (h.rows_of_ne hx)) hne
  | @deleted _ _ x g h =>
    obtain rfl := hwritten h.toTurns
    by_cases hx : m.id = x.id
    · obtain rfl := hs.message_eq hm h.there hx
      exact h.toTurns.lt_changeSeq hs.toMessagesSound hm h.changed
    · have hlive : (g m).deleted = m.deleted := by rw [h.deleted, if_neg hx]
      refine absurd (shown_of_rows hs.linked hs'.linked ⟨hid, (h.message m).2.1, hlive⟩ ?_) hne
      rw [rows, h.previews, List.filter_filter]
      refine filter_congr fun r _ => ?_
      by_cases hr : r.messageId = m.id
      · rw [hr, decide_eq_true hx, Bool.and_true]
      · rw [decide_eq_false hr, Bool.false_and]
  | @rewrites _ f g h =>
    obtain rfl := hwritten h.toTurns
    refine h.toTurns.lt_changeSeq hs.toMessagesSound hm fun heq => hne ?_
    refine shown_rewrite hs.linked hs'.linked h.previews
      ⟨hid, (h.message m).2.1, (h.same m).2⟩ fun r hr => ?_
    by_cases hsame : f r = r
    · exact .inl hsame
    · refine .inr ⟨?_, ?_⟩ <;> refine Bool.eq_false_iff.mpr fun hvisible => ?_
      · exact h.shown m hm ⟨r, hr, hsame, .inl hvisible⟩ heq
      · exact h.shown m hm ⟨r, hr, hsame, .inr hvisible⟩ heq

/-- A row that was there does not wait again. -/
theorem Effect.settled {r' : MessageLinkPreview}
    (hr' : r' ∈ s'.tables.previews) (hold : r'.id < s.ids) : ∃ r ∈ s.tables.previews,
      r.id = r'.id ∧ (r.status ≠ .pending →
        r'.status = r.status ∧ r'.linkPreviewId = r.linkPreviewId) := by
  cases h with
  | sent h =>
    rw [h.previews] at hr'
    rcases mem_append.mp hr' with hr | hr
    · exact ⟨r', hr, rfl, fun _ => ⟨rfl, rfl⟩⟩
    · obtain ⟨⟨k, hk, -⟩, -⟩ := of_mem_rowsOf (List.Sublist.refl _) hr
      rw [hk] at hold
      exact absurd hold (Nat.not_lt.mpr (Nat.le_add_right_of_le (Nat.le_add_right _ _)))
  | @edited _ _ _ body m g _ h =>
    obtain ⟨r, rfl, hr⟩ := h.mem_previews.mp hr'
    obtain ⟨hid, -, -, -, hstatus, hlink, -⟩ :=
      placed_same m (c.candidates body) r
    rcases hr with ⟨hr, -⟩ | hr
    · exact ⟨r, hr, hid.symm, fun _ => ⟨hstatus, hlink⟩⟩
    · obtain ⟨⟨k, hk, -⟩, -⟩ := Edits.of_mem_new hr
      rw [hid, hk] at hold
      exact absurd hold (Nat.not_lt.mpr (Nat.le_add_right _ _))
  | deleted h =>
    rw [h.previews] at hr'
    exact ⟨r', mem_of_mem_filter hr', rfl, fun _ => ⟨rfl, rfl⟩⟩
  | rewrites h =>
    rw [h.previews] at hr'
    obtain ⟨r, hr, rfl⟩ := List.mem_map.mp hr'
    exact ⟨r, hr, (h.row r).1.symm, h.settled r hr⟩

theorem Effect.ids : s.ids ≤ s'.ids := by
  cases h with
  | sent h => exact h.ids
  | edited _ h => exact h.ids
  | deleted h => exact h.ids
  | rewrites h => exact h.ids

theorem Effect.hidden (he : e ∈ s.hidden) : e ∈ s'.hidden := by
  cases h with
  | sent h =>
    rw [h.hidden]
    exact mem_append_left _ he
  | edited _ h => exact h.hidden ▸ he
  | deleted h => exact h.hidden ▸ he
  | rewrites h =>
    obtain ⟨added, hadded, -⟩ := h.hidden
    rw [hadded]
    exact mem_append_left _ he

omit h

/-- A worker that comes late writes nothing. -/
theorem tables_of_late {status : LinkPreviewStatus} (hworker : s.workers[i]? = some (.complete claimed status link))
    (hlate : ∀ r ∈ s.tables.previews, r.id = claimed.id → r.status ≠ .pending)
    (h : s.act c (.complete i) = some s') : s'.tables = s.tables := by
  have hnone : s.completeLinkPreview claimed status link = none := by
    rw [completeLinkPreview]
    split
    · rfl
    · split
      · rfl
      · next row hrow =>
        obtain ⟨hmem, hid, -⟩ := mem_of_getPreview hrow
        rw [if_pos (.inl (hlate row hmem hid))]
  have hgoes : s.act c (.complete i) = some (s.goes i .done) := by
    show s.complete i = _
    rw [complete, hworker]
    simp only [hnone]
  rw [← some.inj (hgoes.symm.trans h)]
  rfl

/-! ## Runs -/

/-- **The condition**: no edit leaves a message with nothing that is unfolded, unless its author has
removed all its rows. -/
def Safe (c : Unfolding) (s : PreviewService) : PreviewAction → Prop
  | .editMessage _ _ message body => c.candidates body = [] →
    ∀ r ∈ s.tables.previews, r.messageId = message → r.removedAt.isSome
  | _ => True

instance (c : Unfolding) (s : PreviewService) (a : PreviewAction) : Decidable (Safe c s a) := by
  cases a <;> unfold Safe <;> infer_instance

/-- **Rows mirror bodies**: a row is of what is in the body, or removed. -/
def Mirrors (c : Unfolding) (s : PreviewService) : Prop :=
  ∀ m ∈ s.tables.messages, ∀ r ∈ s.tables.previews, r.messageId = m.id →
    r.url ∈ c.candidates m.body ∨ r.removedAt.isSome

theorem Effect.mirrors (h : Effect c s s' a) (hs : s.Sound c) (hmirrors : s.Mirrors c)
    (hsafe : Safe c s a) : s'.Mirrors c := by
  intro y hy x hx hof
  cases h with
  | @sent _ _ _ _ m g h =>
    rw [h.previews] at hx
    rcases mem_append.mp hx with hx | hx
    · rcases h.mem.mp hy with ⟨z, hz, rfl⟩ | heq
      · rw [(h.same z).1]
        exact hmirrors z hz x hx (hof.trans (h.message z).1)
      · obtain rfl := some.inj heq
        exact absurd hof (h.ne hs hx)
    · obtain ⟨-, -, hof', -, hplace, -⟩ := of_mem_rowsOf (List.Sublist.refl _) hx
      obtain rfl := (h.toTurns.sound hs.toMessagesSound).message_eq (h.mem.mpr (.inr rfl)) hy
        (hof'.symm.trans hof)
      exact .inl (mem_of_getElem? hplace)
  | @edited actor room message body m g hid h =>
    obtain ⟨z, hz, rfl⟩ := (h.toTurns.mem.mp hy).resolve_right (by simp)
    obtain ⟨r, rfl, hr⟩ := h.mem_previews.mp hx
    obtain ⟨-, -, hmessage, hurl, -, -, hremoved⟩ :=
      placed_same m (c.candidates body) r
    rw [hmessage, (h.message z).1] at hof
    rw [hurl, hremoved, h.bodies]
    rcases hr with ⟨hr, hkept⟩ | hr
    · by_cases hzm : z.id = m.id
      · rw [if_pos hzm]
        by_cases hgone : r.removedAt.isSome
        · exact .inr hgone
        · -- a row that is kept is of the body, or the body has nothing
          refine .inl (by_contra fun hnot => ?_)
          rw [PreviewTables.dropped, decide_eq_true (hof.trans hzm), Bool.true_and,
            not_isSome_iff_eq_none.mp hgone, isNone_none, Bool.true_and,
            PreviewTables.notAny, decide_eq_true hnot, Bool.and_true, decide_eq_false_iff_not,
            not_not] at hkept
          exact hgone (hsafe hkept r hr (hof.trans (hzm.trans hid)))
      · rw [if_neg hzm]
        exact hmirrors z hz r hr hof
    · obtain ⟨-, -, hof', hmem, -⟩ := Edits.of_mem_new hr
      rw [if_pos (hof.symm.trans hof')]
      exact .inl hmem
  | @deleted _ _ m g h =>
    obtain ⟨z, hz, rfl⟩ := (h.toTurns.mem.mp hy).resolve_right (by simp)
    rw [h.previews] at hx
    obtain ⟨hr, hne⟩ := mem_filter.mp hx
    rw [(h.message z).1] at hof
    rw [h.bodies z fun heq => of_decide_eq_true hne (hof.trans heq)]
    exact hmirrors z hz x hr hof
  | @rewrites _ f g h =>
    obtain ⟨z, hz, rfl⟩ := (h.toTurns.mem.mp hy).resolve_right (by simp)
    rw [h.previews] at hx
    obtain ⟨r, hr, rfl⟩ := List.mem_map.mp hx
    obtain ⟨added, -, -, hremoved⟩ := h.hidden
    rw [(h.row r).2.2.1, (h.message z).1] at hof
    rw [(h.row r).2.2.2.1, (h.same z).1, hremoved r hr]
    exact (hmirrors z hz r hr hof).imp_right .inl

theorem sound_of_init (hs : (system c).init s) : s.Sound c ∧ s.Ready ∧ s.Mirrors c := by
  obtain ⟨hmessages, hpreviews, hlinks, hworkers, hhidden⟩ := hs
  have hnoMessage : ∀ m, m ∉ s.tables.messages := by
    rw [hmessages]
    exact fun m => not_mem_nil
  have hnoRow : ∀ r, r ∉ s.tables.previews := by
    rw [hpreviews]
    exact fun r => not_mem_nil
  have hnoHidden : ∀ e, e ∉ s.hidden := by
    rw [hhidden]
    exact fun e => not_mem_nil
  refine ⟨⟨⟨?_, ?_, ?_, ?_⟩, ?_, ?_, ?_, ?_, ?_, ?_, ?_, ?_, ?_, ?_⟩, ?_, ?_⟩
  · rw [hmessages]
    exact nodup_nil
  · exact fun m hm => absurd hm (hnoMessage m)
  · exact fun m hm => absurd hm (hnoMessage m)
  · exact fun m hm => absurd hm (hnoMessage m)
  · rw [hpreviews]
    exact nodup_nil
  · exact fun r hr => absurd hr (hnoRow r)
  · exact fun r hr => absurd hr (hnoRow r)
  · exact fun r hr => absurd hr (hnoRow r)
  · exact fun r hr => absurd hr (hnoRow r)
  · exact fun m hm => absurd hm (hnoMessage m)
  · exact fun m hm => absurd hm (hnoMessage m)
  · exact fun r hr => absurd hr (hnoRow r)
  · exact fun e he => absurd he (hnoHidden e)
  · exact fun e he => absurd he (hnoHidden e)
  · intro claimed link hmem
    rw [hworkers] at hmem
    cases hmem
  · exact fun m hm => absurd hm (hnoMessage m)

theorem sound_of_steps
    (h : (system c).Steps P s s') (hs : s.Sound c ∧ s.Ready) : s'.Sound c ∧ s'.Ready :=
  h.preserves (I := fun t => t.Sound c ∧ t.Ready)
    (fun _ _ _ ht _ hact => ⟨(effect_of_act ht.1 ht.2 hact).sound ht.1, ht.2.act hact⟩) hs

theorem mirrors_of_reachable (hs : (system c).ReachableBy (Safe c) s) :
    s.Sound c ∧ s.Ready ∧ s.Mirrors c := by
  refine hs.invariant (I := fun t => t.Sound c ∧ t.Ready ∧ t.Mirrors c)
    (fun _ h => sound_of_init h) fun t a t' ht hsafe hact => ?_
  obtain ⟨hsound, hready, hmirrors⟩ := ht
  have heffect := effect_of_act hsound hready hact
  exact ⟨heffect.sound hsound, hready.act hact, heffect.mirrors hsound hmirrors hsafe⟩

/-- What is hidden stays hidden. -/
theorem hidden_of_steps
    (h : (system c).Steps P s s') (hs : s.Sound c ∧ s.Ready) (he : e ∈ s.hidden) : e ∈ s'.hidden := by
  induction h with
  | refl => exact he
  | tail hsteps hlast ih =>
    obtain ⟨a, -, hact⟩ := hlast
    obtain ⟨hsound, hready⟩ := sound_of_steps hsteps hs
    exact (effect_of_act hsound hready hact).hidden ih

/-- **A row leaves the queue once**: what it has then it keeps. -/
theorem settled_of_steps {r : MessageLinkPreview}
    (h : (system c).Steps P s s') (hs : s.Sound c ∧ s.Ready) (hr : r ∈ s.tables.previews)
    (hsettled : r.status ≠ .pending) : s.ids ≤ s'.ids ∧ ∀ r' ∈ s'.tables.previews, r'.id = r.id →
      r'.status = r.status ∧ r'.linkPreviewId = r.linkPreviewId := by
  induction h with
  | refl =>
    refine ⟨le_rfl, fun r' hr' hid => ?_⟩
    rw [hs.1.preview_eq hr' hr hid]
    exact ⟨rfl, rfl⟩
  | tail hsteps hlast ih =>
    obtain ⟨a, -, hact⟩ := hlast
    obtain ⟨hsound, hready⟩ := sound_of_steps hsteps hs
    have heffect := effect_of_act hsound hready hact
    refine ⟨ih.1.trans heffect.ids, fun r'' hr'' hid => ?_⟩
    have hold := (hs.1.drawnPreviews r hr).trans_le ih.1
    obtain ⟨r', hr', hid', hkept⟩ := heffect.settled hr'' (hid ▸ hold)
    obtain ⟨hstatus, hlink⟩ := ih.2 r' hr' (hid'.trans hid)
    obtain ⟨hstatus', hlink'⟩ := hkept (hstatus ▸ hsettled)
    exact ⟨hstatus'.trans hstatus, hlink'.trans hlink⟩

/-- Rows whose URLs are those of the body, and those that are hidden, each once. -/
theorem Sound.urls (hs : s.Sound c) (hmirrors : s.Mirrors c) (hm : m ∈ s.tables.messages)
    (huser : m.kind = .user) (hlive : m.deleted = false) :
    ((s.rows m.id).map fun r => r.url).Nodup ∧ ∀ u, u ∈ (s.rows m.id).map (fun r => r.url) ↔
      u ∈ c.candidates m.body ∨ (m.id, u) ∈ s.hidden := by
  have hmem : ∀ {r}, r ∈ s.rows m.id ↔ r ∈ s.tables.previews ∧ r.messageId = m.id := by
    intro r
    rw [rows, mem_filter, decide_eq_true_eq]
  have hrows : (s.rows m.id).Nodup := (List.Nodup.of_map _ hs.previews).filter _
  refine ⟨hrows.map_on fun r hr r' hr' hurl => ?_, fun u => ⟨fun hu => ?_, fun hu => ?_⟩⟩
  · exact hs.once r (hmem.mp hr).1 r' (hmem.mp hr').1
      ((hmem.mp hr).2.trans (hmem.mp hr').2.symm) hurl
  · obtain ⟨r, hr, rfl⟩ := List.mem_map.mp hu
    obtain ⟨hr, hof⟩ := hmem.mp hr
    refine (hmirrors m hm r hr hof).imp_right fun hremoved => ?_
    rw [← hof]
    exact (hs.hiddenRow r hr).mp hremoved
  · have hrow : ∃ r ∈ s.tables.previews, r.messageId = m.id ∧ r.url = u := by
      rcases hu with hu | hu
      · exact hs.covers m hm huser hlive u hu
      · exact hs.hiddenKept _ hu m hm rfl hlive
    obtain ⟨r, hr, hof, rfl⟩ := hrow
    exact List.mem_map.mpr ⟨r, hmem.mpr ⟨hr, hof⟩, rfl⟩

/-- Nothing that is hidden is shown. -/
theorem Sound.not_shown (hs : s.Sound c) {u : List Char}
    (hu : (m.id, u) ∈ s.hidden) : u ∉ (s.tables.shown m).map fun r => r.url := by
  intro hshown
  obtain ⟨r, hr, rfl⟩ := List.mem_map.mp hshown
  obtain ⟨-, hrow, hvisible⟩ := (mem_shown hs.linked).mp hr
  obtain ⟨-, hof, -, hkept⟩ := of_decide_eq_true hvisible
  have hremoved := (hs.hiddenRow r hrow).mpr (hof ▸ hu)
  rw [hkept] at hremoved
  cases hremoved

/-- What is shown is of the body, in its order. -/
theorem Sound.shown_sublist (hs : s.Sound c) (hmirrors : s.Mirrors c) (hm : m ∈ s.tables.messages) :
    ((s.tables.shown m).map fun r => r.url).Sublist (c.candidates m.body) := by
  have hplace : ∀ r ∈ s.tables.shown m, r ∈ s.tables.previews ∧ r.messageId = m.id ∧
      (c.candidates m.body)[r.position]? = some r.url := by
    intro r hr
    obtain ⟨-, hrow, hvisible⟩ := (mem_shown hs.linked).mp hr
    obtain ⟨-, hof, -, hkept⟩ := of_decide_eq_true hvisible
    have hurl := (hmirrors m hm r hrow hof).resolve_right (by rw [hkept]; simp)
    exact ⟨hrow, hof, hs.positions m hm r hrow hof hurl⟩
  refine List.map_sublist_of_positions (p := fun r => r.position) ?_ fun r hr => (hplace r hr).2.2
  have hsorted : (s.tables.shown m).Pairwise (fun r r' => r.position ≤ r'.position) ∧
      (s.tables.shown m).Nodup := by
    rw [shown_eq hs.linked]
    split
    · exact ⟨List.Pairwise.nil, nodup_nil⟩
    · exact ⟨pairwise_insertionSort _ _,
        (perm_insertionSort _ _).nodup_iff.mpr ((List.Nodup.of_map _ hs.previews).filter _)⟩
  refine (hsorted.1.and hsorted.2).imp_of_mem fun {r r'} hr hr' ⟨hle, hne⟩ => ?_
  obtain ⟨hrow, hof, hat⟩ := hplace r hr
  obtain ⟨hrow', hof', hat'⟩ := hplace r' hr'
  refine lt_of_le_of_ne hle fun heq => hne ?_
  -- rows at one place have one URL
  rw [heq, hat'] at hat
  exact hs.once r hrow r' hrow' (hof.trans hof'.symm) (some.inj hat).symm

/-- **Previews mirror the body.** In every state that is reached by steps none of which is an edit
that leaves nothing that is unfolded to a message with a row that is not removed: the rows of a message
that is not deleted have the URLs that are unfolded of its body and those that its author has
suppressed or removed, each once; a message shows some of the URLs of its body, in their order, and
none that is hidden, whatever happens later; what it shows changes only in a step in which it gets a
larger number; and a row that is completed keeps what it has, so that a worker that comes late writes
nothing. -/
theorem previews_mirror_body {s : PreviewService} (hs : (system c).ReachableBy (Safe c) s) :
    (∀ m ∈ s.tables.messages, m.kind = .user → m.deleted = false →
      ((s.rows m.id).map fun r => r.url).Nodup ∧ ∀ u, u ∈ (s.rows m.id).map (fun r => r.url) ↔
        u ∈ c.candidates m.body ∨ (m.id, u) ∈ s.hidden) ∧
    (∀ m ∈ s.tables.messages,
      ((s.tables.shown m).map fun r => r.url).Sublist (c.candidates m.body)) ∧
    (∀ s', (system c).Steps (Safe c) s s' → ∀ e ∈ s.hidden, ∀ m ∈ s'.tables.messages, m.id = e.1 →
      e.2 ∉ (s'.tables.shown m).map fun r => r.url) ∧
    (∀ a s', s.act c a = some s' → ∀ m ∈ s.tables.messages, ∀ m' ∈ s'.tables.messages, m'.id = m.id →
      s'.tables.shown m' ≠ s.tables.shown m → m.changeSeq < m'.changeSeq) ∧
    (∀ r ∈ s.tables.previews, r.status ≠ .pending → ∀ s', (system c).Steps (Safe c) s s' →
      ∀ r' ∈ s'.tables.previews, r'.id = r.id →
        r'.status = r.status ∧ r'.linkPreviewId = r.linkPreviewId) ∧
    ∀ i claimed status link s', s.workers[i]? = some (.complete claimed status link) →
      (∀ r ∈ s.tables.previews, r.id = claimed.id → r.status ≠ .pending) →
      s.act c (.complete i) = some s' → s'.tables = s.tables := by
  obtain ⟨hsound, hready, hmirrors⟩ := mirrors_of_reachable hs
  refine ⟨fun m hm huser hlive => hsound.urls hmirrors hm huser hlive,
    fun m hm => hsound.shown_sublist hmirrors hm, fun s' hsteps e he m hm hid => ?_,
    fun a s' hact m hm m' hm' hid hne =>
      (effect_of_act hsound hready hact).lt_changeSeq hsound hm hm' hid hne,
    fun r hr hsettled s' hsteps => (settled_of_steps hsteps ⟨hsound, hready⟩ hr hsettled).2,
    fun i claimed status link s' hworker hlate hact => tables_of_late hworker hlate hact⟩
  have hlater := (sound_of_steps hsteps ⟨hsound, hready⟩).1
  refine hlater.not_shown ?_
  rw [hid]
  exact hidden_of_steps hsteps ⟨hsound, hready⟩ he

/-! ## An edit that takes away the last URL -/

/-- An unfolding that finds a host after `https://`. -/
def simple : Unfolding where
  parse raw := some ⟨"https".toList, raw.drop 8⟩
  equalFold a b := decide (a = b)
  app := none

/-- One room, with nothing in it. -/
def oneRoom : PreviewService where
  tables := ⟨fun id => if id = 1 then some ⟨false, 0, 0, 0⟩ else none, [], [], []⟩
  clock := 0
  ids := 10
  workers := []
  hidden := []

/-- A message with a URL is sent, and the URL is fetched. -/
def unfolded : List PreviewAction :=
  [.sendMessage 2 1 ⟨7, "see https://a.b", none, false, []⟩ [], .claim 11, .resolve 0,
    .fetch 0 (some true), .complete 0]

/-- The URL that was fetched is shown, and then removed. -/
theorem previews_mirror_body_removed : ∃ s, (system simple).ReachableBy (Safe simple) s ∧
    ∃ e ∈ s.hidden, ∀ s', (system simple).Steps (Safe simple) s s' → ∀ m ∈ s'.tables.messages,
      m.id = e.1 → e.2 ∉ (s'.tables.shown m).map fun r => r.url := by
  have hrun : ((system simple).runBy (Safe simple) oneRoom (unfolded ++
      [.editMessage 2 1 10 "now https://a.b and https://c.d", .removeLinkPreview 2 1 10 11])).any
        (fun s => s.hidden.any fun e => decide (e.1 = 10)) = true := by decide +kernel
  obtain ⟨s, hreach, htest⟩ := TransitionSystem.exists_of_runBy hrun ⟨rfl, rfl, rfl, rfl, rfl⟩
  obtain ⟨e, he, -⟩ := List.any_eq_true.mp htest
  exact ⟨s, hreach, e, he, fun s' hsteps => (previews_mirror_body hreach).2.2.1 s' hsteps e he⟩

/-- **What is gone from a body is shown**, after an edit that leaves no URL. -/
theorem shown_after_edit : ∃ s, (system simple).Reachable s ∧ ∃ m ∈ s.tables.messages,
    m.kind = .user ∧ m.deleted = false ∧ ∃ r ∈ s.tables.shown m, r.url ∉ simple.candidates m.body := by
  have hrun : ((system simple).run oneRoom (unfolded ++ [.editMessage 2 1 10 "gone"])).any
      (fun s => s.tables.messages.any fun m => decide (m.kind = .user ∧ m.deleted = false) &&
        (s.tables.shown m).any fun r => decide (r.url ∉ simple.candidates m.body)) = true := by
    decide +kernel
  obtain ⟨s, hreach, htest⟩ := TransitionSystem.exists_of_run hrun ⟨rfl, rfl, rfl, rfl, rfl⟩
  obtain ⟨m, hm, htest⟩ := List.any_eq_true.mp htest
  obtain ⟨hlive, htest⟩ := Bool.and_eq_true_iff.mp htest
  obtain ⟨r, hr, hgone⟩ := List.any_eq_true.mp htest
  obtain ⟨huser, hdeleted⟩ := of_decide_eq_true hlive
  exact ⟨s, hreach, m, hm, huser, hdeleted, r, hr, of_decide_eq_true hgone⟩

end PreviewService

end Hibari
