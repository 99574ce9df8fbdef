import Hibari.Timeline

/-!
# Paging through a room's history

The requests that widen or replace the loaded window (`store/history.ts`):
older messages, newer ones, the surroundings of a message, and the first
unread one. A request is answered later, and the answer is applied to
whatever the timeline is by then.

For each of them there is a condition under which the answer keeps the
promise of the cursor, and it is exact. The page has to be **fresh**
(`Fresh`): no change that the cursor already counts touched the page's range
after its rows were read, for the cursor takes such a change as seen and the
page shows what was before it. And a page that is joined to an edge of the
window has to find that edge still there (`Joined`).
-/

namespace Hibari

open List Option RoomLog Window

/-- What a paging request asked for. -/
inductive Paging
  | older (beforeSeq : ℕ)
  | newer (afterSeq : ℕ)
  | jump (messageId : Ulid)
  | unread (afterSeq : ℕ)
  deriving DecidableEq

/-- Where the page that a request asks for starts. -/
def Paging.cursor : Paging → MessageCursor
  | .older beforeSeq => .before beforeSeq
  | .newer afterSeq => .after afterSeq
  | .jump messageId => .around messageId
  | .unread afterSeq => .after afterSeq

/-! ## The requests -/

/-- Ask for the page before the oldest message, unless it is being loaded or
there is none. -/
def loadOlder (timeline : TimelineState) : Option (Paging × TimelineState) :=
  if timeline.status ≠ .ready ∨ timeline.hasOlder = false ∨ timeline.loadingOlder = true then none
  else timeline.messages.head?.map (fun oldest =>
    (.older oldest.seq, { timeline with loadingOlder := true }))

/-- Ask for the page after the newest message, unless it is being loaded or
there is none. -/
def loadNewer (timeline : TimelineState) : Option (Paging × TimelineState) :=
  if timeline.status ≠ .ready ∨ timeline.hasNewer = false ∨ timeline.loadingNewer = true then none
  else timeline.messages.getLast?.map (fun newest =>
    (.newer newest.seq, { timeline with loadingNewer := true }))

/-- Ask for the surroundings of a message, in a room that is open. -/
def jumpToMessage (messageId : Ulid) (timeline : TimelineState) : Option (Paging × TimelineState) :=
  if timeline.status = .ready then some (.jump messageId, timeline) else none

/-- Ask for the page after the position that was read when the room was
opened. -/
def jumpToUnread (timeline : TimelineState) : Option (Paging × TimelineState) :=
  if timeline.status = .ready then
    timeline.unreadAfterSeq.map (fun afterSeq => (.unread afterSeq, timeline))
  else none

/-! ## The answers -/

/-- Join older messages to the window. The cursor stays. -/
def addOlder (page : MessagePage) (timeline : TimelineState) : TimelineState :=
  { timeline with
    messages := mergeMessages timeline.messages page.messages
    hasOlder := page.hasMore
    loadingOlder := false }

/-- Join newer messages to the window. -/
def addNewer (page : MessagePage) (timeline : TimelineState) : TimelineState :=
  let messages := mergeMessages timeline.messages page.messages
  { timeline with
    messages := messages
    hasNewer := page.hasMore
    loadingNewer := false
    changeSeq := advanceCursor timeline.changeSeq messages }

/-- Replace the window by a page, which says itself on which sides there is
more. -/
def replaceWindow (page : MessagePage) (timeline : TimelineState) : TimelineState :=
  let messages := mergeMessages [] page.messages
  { timeline with
    status := .ready
    messages := messages
    hasOlder := page.hasMore
    loadingOlder := false
    hasNewer := page.hasMoreAfter
    loadingNewer := false
    changeSeq := advanceCursor (max timeline.changeSeq page.lastChangeSeq) messages }

/-- What the answer to a request does to the timeline. A page from the first
unread message has older ones before it, unless nothing had been read. -/
def Paging.apply : Paging → MessagePage → TimelineState → TimelineState
  | .older _, page, timeline => addOlder page timeline
  | .newer _, page, timeline => addNewer page timeline
  | .jump _, page, timeline => replaceWindow page timeline
  | .unread afterSeq, page, timeline =>
    replaceWindow { page with hasMore := decide (0 < afterSeq), hasMoreAfter := page.hasMore } timeline

/-- What a request does when it fails. -/
def Paging.fail : Paging → TimelineState → TimelineState
  | .older _, timeline => { timeline with loadingOlder := false }
  | .newer _, timeline => { timeline with loadingNewer := false }
  | .jump _, timeline => timeline
  | .unread _, timeline => timeline

/-! ## Fresh and joined pages -/

/-- The positions that a page brings into the window. -/
def Paging.range : Paging → MessagePage → ℕ → Prop
  | .older beforeSeq, page, position => page.covers (.before beforeSeq) position
  | .newer afterSeq, page, position => page.covers (.after afterSeq) position
  | .jump messageId, page, position => page.covers (.around messageId) position
  | .unread afterSeq, page, position =>
    Window.admits ⟨decide (0 < afterSeq), page.hasMore⟩ page.messages position = true

/-- **A fresh page**: no watched change to a message in its range committed
after the page's row was read and is counted by the cursor already. -/
def Fresh (log : RoomLog) (watch : Watch) (reads : Reads) (paging : Paging) (page : MessagePage)
    (timeline : TimelineState) : Prop :=
  ∀ k p, log.watched watch k p → p.inChannel = true → paging.range page p.seq →
    log.shownAt reads paging.cursor p.seq < k → max timeline.changeSeq page.lastChangeSeq < k

instance (page : MessagePage) (cursor : MessageCursor) (position : ℕ) :
    Decidable (page.covers cursor position) :=
  match cursor with
  | .latest => inferInstanceAs (Decidable (_ = true))
  | .before _ => inferInstanceAs (Decidable (_ ∧ _ = true))
  | .after _ => inferInstanceAs (Decidable (_ ∧ _ = true))
  | .around _ => inferInstanceAs (Decidable (_ = true))
  | .afterChange _ => inferInstanceAs (Decidable False)

instance (paging : Paging) (page : MessagePage) (position : ℕ) :
    Decidable (paging.range page position) :=
  match paging with
  | .older beforeSeq => inferInstanceAs (Decidable (page.covers (.before beforeSeq) position))
  | .newer afterSeq => inferInstanceAs (Decidable (page.covers (.after afterSeq) position))
  | .jump messageId => inferInstanceAs (Decidable (page.covers (.around messageId) position))
  | .unread _ => inferInstanceAs (Decidable (_ = true))

/-- Whether a page is fresh for every change can be computed. -/
instance (log : RoomLog) (reads : Reads) (paging : Paging) (page : MessagePage)
    (timeline : TimelineState) : Decidable (Fresh log .changes reads paging page timeline) :=
  decidable_of_iff (∀ change ∈ log.changes.map Message.stamp, change.place.inChannel = true →
      paging.range page change.place.seq →
        log.shownAt reads paging.cursor change.place.seq < change.changeSeq →
          max timeline.changeSeq page.lastChangeSeq < change.changeSeq)
    ⟨fun h k p ht => h ⟨p, k⟩ ht, fun h change hchange => h change.changeSeq change.place hchange⟩

/-- **A joined page** finds the edge it was asked for: the window still starts,
or ends, there. A page that replaces the window finds a room that is open. -/
def Joined (paging : Paging) (timeline : TimelineState) : Prop :=
  match paging with
  | .older beforeSeq =>
    timeline.status = .ready → timeline.messages.head?.map Message.seq = some beforeSeq
  | .newer afterSeq =>
    timeline.status = .ready → timeline.messages.getLast?.map Message.seq = some afterSeq
  | .jump _ => timeline.status = .ready
  | .unread _ => timeline.status = .ready

/-! ## Replacing the window -/

section Answers

variable {log : RoomLog} {watch : Watch} {reads : Reads} {page : MessagePage}
  {timeline : TimelineState} {messages : List Message}
  {current incoming : List Message} {paging : Paging}

theorem Paging.cursor_ne (paging : Paging) (n : ℕ) : paging.cursor ≠ .afterChange n := by
  cases paging <;> exact fun h => MessageCursor.noConfusion h

/-- A window that is a page keeps the promise when the page does. -/
theorem reflecting_replaceWindow_iff (htidy : Tidy page.messages) (hg : Genuine log page.messages) :
    Reflecting log watch (replaceWindow page timeline) ↔
      ChangeLog.Reflects (log.watched watch) (held page.messages) {p : Place | p.inChannel = true ∧
          Window.admits ⟨page.hasMore, page.hasMoreAfter⟩ page.messages p.seq = true}
        (max timeline.changeSeq page.lastChangeSeq) := by
  unfold Reflecting TimelineState.answersFor TimelineState.window replaceWindow
  simp only [mergeMessages_nil_of_tidy htidy]
  exact ⟨fun h => h.mono_cursor (le_advanceCursor _ _), reflects_advanceCursor hg⟩

/-- **The window is as good as its page is fresh**: the two kinds of page that
replace the window keep the promise exactly when they are fresh. -/
theorem reflects_page_iff_fresh (watch : Watch) (paging : Paging) (range : ℕ → Prop) (c : ℕ)
    (hpage : log.answer reads paging.cursor messagePageSize messages = some page)
    (hrange : ∀ p k, 0 < k → range p → k ≤ log.shownAt reads paging.cursor p →
      page.covers paging.cursor p) :
    ChangeLog.Reflects (log.watched watch) (held page.messages)
        {p : Place | p.inChannel = true ∧ range p.seq} c ↔
      ∀ k p, log.watched watch k p → p.inChannel = true → range p.seq →
        log.shownAt reads paging.cursor p.seq < k → c < k := by
  constructor
  · intro h k p hw hch hr hshown
    refine not_le.mp fun hk => ?_
    -- what the page holds at this position is older than the change
    obtain ⟨v, hkv, hv⟩ := h k p hk hw ⟨hch, hr⟩
    obtain ⟨-, hle⟩ := le_shownAt_of_held hpage three_le_messagePageSize paging.cursor_ne hv
    exact absurd (hshown.trans_le hkv) hle.not_gt
  · intro h k p hk hw hp
    have ht := touch_of_watched hw
    have hshown : k ≤ log.shownAt reads paging.cursor p.seq :=
      not_lt.mp fun hlt => absurd hk (h k p hw hp.1 hp.2 hlt).not_ge
    exact exists_held_answer hpage three_le_messagePageSize ht hp.1
      (hrange p.seq k (touch_bounds ht).1 hp.2 hshown) hshown

theorem reflecting_jump_iff {messageId : Ulid}
    (hpage : log.answer reads (.around messageId) messagePageSize messages = some page) :
    Reflecting log watch (Paging.apply (.jump messageId) page timeline) ↔
      Fresh log watch reads (.jump messageId) page timeline := by
  have hcursor := Paging.cursor_ne (.jump messageId)
  refine (reflecting_replaceWindow_iff
    (tidy_answer hpage three_le_messagePageSize hcursor) (genuine_answer hcursor hpage)).trans ?_
  exact reflects_page_iff_fresh watch (.jump messageId) (page.covers (.around messageId)) _ hpage
    (fun _ _ _ hr _ => hr)

theorem reflecting_unread_iff {afterSeq : ℕ}
    (hpage : log.answer reads (.after afterSeq) messagePageSize messages = some page) :
    Reflecting log watch (Paging.apply (.unread afterSeq) page timeline) ↔
      Fresh log watch reads (.unread afterSeq) page timeline := by
  have hcursor := Paging.cursor_ne (.unread afterSeq)
  have htidy : Tidy page.messages := tidy_answer hpage three_le_messagePageSize hcursor
  have hg : Genuine log page.messages := genuine_answer hcursor hpage
  refine Iff.trans (reflecting_replaceWindow_iff htidy hg) ?_
  show ChangeLog.Reflects _ (held page.messages) _ (max timeline.changeSeq page.lastChangeSeq) ↔ _
  refine reflects_page_iff_fresh watch (.unread afterSeq) ((Paging.unread afterSeq).range page) _
    hpage (fun pos k hk hr hshown => ?_)
  -- below the position that was read the page shows nothing
  have hpos : afterSeq < pos := by
    refine not_le.mp fun hle => ?_
    rw [Paging.cursor, RoomLog.shownAt, if_neg hle.not_gt] at hshown
    exact hk.ne' (Nat.le_zero.mp hshown)
  exact ⟨hpos, admits_iff.mpr ⟨fun h => absurd h Bool.false_ne_true, (admits_iff.mp hr).2⟩⟩

/-! ## Widening the window -/

/-- Joining a page to what is held: away from what was held, the promise is
the page's. -/
theorem reflects_mergeMessages_iff (paging : Paging) {W W' : Set Place} {c : ℕ}
    (hpage : log.answer reads paging.cursor messagePageSize messages = some page)
    (hrange : ∀ pos, paging.range page pos → page.covers paging.cursor pos)
    (htidy : Tidy timeline.messages) (hg : Genuine log timeline.messages)
    (h : ChangeLog.Reflects (log.watched watch) (held timeline.messages) W c)
    (hW : ∀ p ∈ W', p ∈ W ∨ paging.range page p.seq)
    (hrangeW : ∀ p : Place, p.inChannel = true → paging.range page p.seq → p ∈ W')
    (hch : ∀ p ∈ W', p.inChannel = true)
    (hdisj : ∀ p v, held timeline.messages p v → ¬ paging.range page p.seq) :
    ChangeLog.Reflects (log.watched watch)
        (held (mergeMessages timeline.messages page.messages)) W' c ↔
      ∀ k p, log.watched watch k p → p.inChannel = true → paging.range page p.seq →
        log.shownAt reads paging.cursor p.seq < k → c < k := by
  have hinc := genuine_answer paging.cursor_ne hpage
  have hpart := reflects_page_iff_fresh watch paging (paging.range page) c hpage
    (fun pos _ _ hr _ => hrange pos hr)
  rw [← hpart]
  constructor
  · intro hm k p hk hw hp
    obtain ⟨v, hkv, hv⟩ := hm k p hk hw (hrangeW p hp.1 hp.2)
    -- a merge invents nothing, and nothing was held at this position
    obtain ⟨m, hmm, rfl, rfl⟩ := exists_of_held hv
    have hsrc := forall_stamp_mergeMessages
      (Q := fun st => held timeline.messages st.place st.changeSeq ∨
        held page.messages st.place st.changeSeq)
      (fun _ h => .inl (held_of_mem h)) (fun _ h => .inr (held_of_mem h)) m hmm
    exact ⟨m.changeSeq, hkv, hsrc.resolve_left (fun hcur => hdisj _ _ hcur hp.2)⟩
  · intro hp k p hk hw hpW
    cases hW p hpW with
    | inl hold =>
      obtain ⟨v, hkv, hv⟩ := h k p hk hw hold
      obtain ⟨v', hvv', hv'⟩ := exists_held_mergeMessages htidy hg hinc hv
      exact ⟨v', hkv.trans hvv', hv'⟩
    | inr hnew =>
      obtain ⟨v, hkv, hv⟩ := hp k p hk hw ⟨hch p hpW, hnew⟩
      obtain ⟨v', hvv', hv'⟩ := exists_held_mergeMessages_incoming hg hinc hv
      exact ⟨v', hkv.trans hvv', hv'⟩

/-- The edges of a merge: what bounds both sides bounds it, and what is on
either side is at some position of it. -/
theorem forall_seq_mergeMessages {Q : ℕ → Prop}
    (hcur : ∀ m ∈ current, Q m.seq) (hinc : ∀ m ∈ incoming, Q m.seq) :
    ∀ m ∈ mergeMessages current incoming, Q m.seq :=
  forall_stamp_mergeMessages (Q := fun st => Q st.place.seq) hcur hinc

theorem exists_seq_mergeMessages (htidy : Tidy current)
    (hcur : Genuine log current) (hinc : Genuine log incoming) {m : Message}
    (hm : m ∈ current ∨ m ∈ incoming) :
    ∃ m' ∈ mergeMessages current incoming, m'.seq = m.seq := by
  have hheld : ∃ v, held (mergeMessages current incoming) m.place v := by
    cases hm with
    | inl hm =>
      obtain ⟨v, -, hv⟩ := exists_held_mergeMessages htidy hcur hinc (held_of_mem hm)
      exact ⟨v, hv⟩
    | inr hm =>
      obtain ⟨v, -, hv⟩ := exists_held_mergeMessages_incoming hcur hinc (held_of_mem hm)
      exact ⟨v, hv⟩
  obtain ⟨v, hv⟩ := hheld
  obtain ⟨m', hm', hp, -⟩ := exists_of_held hv
  exact ⟨m', hm', congrArg Place.seq hp⟩

/-- **Older messages keep the promise exactly when they are fresh**, the
window still starting where they end. -/
theorem reflecting_older_iff {b : ℕ}
    (hpage : log.answer reads (.before b) messagePageSize messages = some page)
    (hreads : reads.room ≤ reads.first) (hc : Consistent log timeline)
    (h : Reflecting log watch timeline)
    (hedge : timeline.messages.head?.map Message.seq = some b) :
    Reflecting log watch (Paging.apply (.older b) page timeline) ↔
      Fresh log watch reads (.older b) page timeline := by
  obtain ⟨o, ho, rfl⟩ := map_eq_some_iff.mp hedge
  have hinc : Genuine log page.messages := genuine_answer (Paging.cursor_ne (.older o.seq)) hpage
  have hpageTidy : Tidy page.messages :=
    tidy_answer hpage three_le_messagePageSize (Paging.cursor_ne (.older o.seq))
  have hmerged := tidy_mergeMessages timeline.messages page.messages
  have holow : ∀ m ∈ timeline.messages, o.seq ≤ m.seq := fun m hm => hc.tidy.head_le ho hm
  have hbelow : ∀ m ∈ page.messages, m.seq < o.seq := fun m hm => lt_of_mem_before hpage hm
  obtain ⟨o', ho', hoseq⟩ := exists_seq_mergeMessages hc.tidy hc.genuine hinc
    (.inl (mem_of_mem_head? ho))
  unfold Reflecting Fresh
  refine (reflects_mergeMessages_iff (.older o.seq) hpage (fun _ hr => hr) hc.tidy
    hc.genuine h ?_ ?_ (fun p hp => hp.1) ?_).trans ?_
  · rintro p ⟨hch, hadm⟩
    obtain ⟨hlow, hhigh⟩ := admits_iff.mp hadm
    by_cases hp : p.seq < o.seq
    · refine .inr ⟨hp, admits_iff.mpr ⟨fun hmore x hx => ?_, nofun⟩⟩
      obtain ⟨y, hy⟩ := isSome_iff_exists.mp (isSome_head?.mpr (ne_nil_of_mem ho'))
      refine le_trans ?_ (hlow hmore y hy)
      exact forall_seq_mergeMessages (Q := fun s => x.seq ≤ s)
        (fun m hm => ((hbelow x (mem_of_mem_head? hx)).trans_le (holow m hm)).le)
        (fun m hm => hpageTidy.head_le hx hm) y (mem_of_mem_head? hy)
    · refine .inl ⟨hch, admits_iff.mpr ⟨fun _ x hx => ?_, fun hnew n hn => ?_⟩⟩
      · obtain rfl : o = x := some.inj (ho.symm.trans hx)
        exact not_lt.mp hp
      · obtain ⟨y, hy⟩ := isSome_iff_exists.mp (getLast?_isSome.mpr (ne_nil_of_mem ho'))
        refine (hhigh hnew y hy).trans ?_
        exact forall_seq_mergeMessages (Q := fun s => s ≤ n.seq) (fun m hm => hc.tidy.le_getLast hn hm)
          (fun m hm => ((hbelow m hm).trans_le (holow n (mem_of_getLast? hn))).le)
          y (mem_of_getLast? hy)
  · rintro p hch ⟨hp, hadm⟩
    refine ⟨hch, admits_iff.mpr ⟨fun hmore y hy => ?_, fun _ y hy => ?_⟩⟩
    · obtain ⟨x, hx⟩ := isSome_iff_exists.mp
        (isSome_head?.mpr (ne_nil_of_hasMore_before hpage hmore))
      obtain ⟨x', hx', hxseq⟩ := exists_seq_mergeMessages hc.tidy hc.genuine hinc
        (.inr (mem_of_mem_head? hx))
      exact (hmerged.head_le hy hx').trans (hxseq.le.trans ((admits_iff.mp hadm).1 hmore x hx))
    · exact (hp.trans_le (hoseq.ge.trans (hmerged.le_getLast hy ho'))).le
  · rintro p v hv ⟨hp, -⟩
    obtain ⟨m, hm, rfl, -⟩ := exists_of_held hv
    exact absurd hp (holow m hm).not_gt
  · refine forall_congr' fun k => forall_congr' fun p => ?_
    refine imp_congr_right fun _ => imp_congr_right fun _ => imp_congr_right fun _ =>
      imp_congr_right fun hshown => ?_
    rw [lastChangeSeq_answer hpage]
    exact ⟨fun hk => max_lt hk (hreads.trans_lt hshown), fun hk => (le_max_left _ _).trans_lt hk⟩

/-- **Newer messages keep the promise exactly when they are fresh**, the
window still ending where they start. -/
theorem reflecting_newer_iff {a : ℕ}
    (hpage : log.answer reads (.after a) messagePageSize messages = some page)
    (hreads : reads.room ≤ reads.first) (hc : Consistent log timeline)
    (h : Reflecting log watch timeline)
    (hedge : timeline.messages.getLast?.map Message.seq = some a) :
    Reflecting log watch (Paging.apply (.newer a) page timeline) ↔
      Fresh log watch reads (.newer a) page timeline := by
  obtain ⟨o, ho, rfl⟩ := map_eq_some_iff.mp hedge
  have hinc : Genuine log page.messages := genuine_answer (Paging.cursor_ne (.newer o.seq)) hpage
  have hpageTidy : Tidy page.messages :=
    tidy_answer hpage three_le_messagePageSize (Paging.cursor_ne (.newer o.seq))
  have hmerged := tidy_mergeMessages timeline.messages page.messages
  have hohigh : ∀ m ∈ timeline.messages, m.seq ≤ o.seq := fun m hm => hc.tidy.le_getLast ho hm
  have habove : ∀ m ∈ page.messages, o.seq < m.seq := fun m hm => lt_of_mem_after hpage hm
  obtain ⟨o', ho', hoseq⟩ := exists_seq_mergeMessages hc.tidy hc.genuine hinc
    (.inl (mem_of_getLast? ho))
  -- the cursor only moves over what is held
  have hadvance : Reflecting log watch (Paging.apply (.newer o.seq) page timeline) ↔
      ChangeLog.Reflects (log.watched watch) (held (mergeMessages timeline.messages page.messages))
        (Paging.apply (.newer o.seq) page timeline).answersFor timeline.changeSeq :=
    ⟨fun hr => hr.mono_cursor (le_advanceCursor _ _),
      reflects_advanceCursor (hc.genuine.mergeMessages hinc)⟩
  rw [hadvance]
  unfold Reflecting at h
  unfold Fresh
  refine (reflects_mergeMessages_iff (.newer o.seq) hpage (fun _ hr => hr) hc.tidy
    hc.genuine h ?_ ?_ (fun p hp => hp.1) ?_).trans ?_
  · rintro p ⟨hch, hadm⟩
    obtain ⟨hlow, hhigh⟩ := admits_iff.mp hadm
    by_cases hp : o.seq < p.seq
    · refine .inr ⟨hp, admits_iff.mpr
        ⟨fun hf => absurd hf Bool.false_ne_true, fun hmore x hx => ?_⟩⟩
      obtain ⟨y, hy⟩ := isSome_iff_exists.mp (getLast?_isSome.mpr (ne_nil_of_mem ho'))
      refine le_trans (hhigh hmore y hy) ?_
      exact forall_seq_mergeMessages (Q := fun s => s ≤ x.seq)
        (fun m hm => ((hohigh m hm).trans_lt (habove x (mem_of_getLast? hx))).le)
        (fun m hm => hpageTidy.le_getLast hx hm) y (mem_of_getLast? hy)
    · refine .inl ⟨hch, admits_iff.mpr ⟨fun hold x hx => ?_, fun _ n hn => ?_⟩⟩
      · obtain ⟨y, hy⟩ := isSome_iff_exists.mp (isSome_head?.mpr (ne_nil_of_mem ho'))
        refine le_trans ?_ (hlow hold y hy)
        exact forall_seq_mergeMessages (Q := fun s => x.seq ≤ s) (fun m hm => hc.tidy.head_le hx hm)
          (fun m hm => ((hohigh x (mem_of_mem_head? hx)).trans_lt (habove m hm)).le)
          y (mem_of_mem_head? hy)
      · obtain rfl : o = n := some.inj (ho.symm.trans hn)
        exact not_lt.mp hp
  · rintro p hch ⟨hp, hadm⟩
    refine ⟨hch, admits_iff.mpr ⟨fun _ y hy => ?_, fun hmore y hy => ?_⟩⟩
    · exact ((hmerged.head_le hy ho').trans (hoseq.le)).trans hp.le
    · obtain ⟨x, hx⟩ := isSome_iff_exists.mp
        (getLast?_isSome.mpr (ne_nil_of_hasMore_after hpage hmore))
      obtain ⟨x', hx', hxseq⟩ := exists_seq_mergeMessages hc.tidy hc.genuine hinc
        (.inr (mem_of_getLast? hx))
      exact ((admits_iff.mp hadm).2 hmore x hx).trans (hxseq.ge.trans (hmerged.le_getLast hy hx'))
  · rintro p v hv ⟨hp, -⟩
    obtain ⟨m, hm, rfl, -⟩ := exists_of_held hv
    exact absurd hp (hohigh m hm).not_gt
  · refine forall_congr' fun k => forall_congr' fun p => ?_
    refine imp_congr_right fun _ => imp_congr_right fun _ => imp_congr_right fun hr =>
      imp_congr_right fun hshown => ?_
    rw [lastChangeSeq_answer hpage]
    rw [Paging.cursor, RoomLog.shownAt, if_pos hr.1] at hshown
    exact ⟨fun hk => max_lt hk (hreads.trans_lt hshown), fun hk => (le_max_left _ _).trans_lt hk⟩

/-! ## Every answer -/

theorem Consistent.applyPaging (hc : Consistent log timeline)
    (hpage : log.answer reads paging.cursor messagePageSize messages = some page)
    (hroom : reads.room ≤ log.length) :
    Consistent log (paging.apply page timeline) := by
  have hinc : Genuine log page.messages := genuine_answer paging.cursor_ne hpage
  have hlast : max timeline.changeSeq page.lastChangeSeq ≤ log.length :=
    max_le hc.changeSeq_le ((lastChangeSeq_answer hpage).trans_le hroom)
  have hboth := hc.genuine.mergeMessages hinc
  have hnew : Genuine log (mergeMessages [] page.messages) := genuine_nil.mergeMessages hinc
  cases paging with
  | older => exact ⟨tidy_mergeMessages _ _, hboth, hc.changeSeq_le⟩
  | newer => exact ⟨tidy_mergeMessages _ _, hboth, advanceCursor_le_length hboth hc.changeSeq_le⟩
  | _ => exact ⟨tidy_mergeMessages _ _, hnew, advanceCursor_le_length hnew hlast⟩

theorem le_applyPaging_changeSeq : timeline.changeSeq ≤ (paging.apply page timeline).changeSeq := by
  cases paging with
  | older => exact le_rfl
  | newer => exact le_advanceCursor _ _
  | _ => exact (le_max_left _ _).trans (le_advanceCursor _ _)

/-- **A joined page keeps the promise exactly when it is fresh.** -/
theorem reflecting_applyPaging_iff
    (hpage : log.answer reads paging.cursor messagePageSize messages = some page)
    (hreads : reads.room ≤ reads.first) (hc : Consistent log timeline)
    (hready : timeline.status = .ready) (h : Reflecting log watch timeline)
    (hjoined : Joined paging timeline) :
    Reflecting log watch (paging.apply page timeline) ↔
      Fresh log watch reads paging page timeline := by
  cases paging with
  | older => exact reflecting_older_iff hpage hreads hc h (hjoined hready)
  | newer => exact reflecting_newer_iff hpage hreads hc h (hjoined hready)
  | jump => exact reflecting_jump_iff hpage
  | unread => exact reflecting_unread_iff hpage

end Answers

end Hibari
