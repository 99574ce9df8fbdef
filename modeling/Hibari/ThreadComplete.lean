import Hibari.ThreadPane

/-!
# An open thread is complete

In a window of a thread nothing is missing of what has arrived: each change that the room's cursor has
passed, and that lies in the window, is held, in its version or a newer one (`Full`). A message that arrives
keeps this by being merged. A page keeps it where what arrived since it was read is held
(`pane_complete`).
-/

namespace Hibari

open List Option Window Holds

namespace ThreadState

variable {log : RoomLog} {rootId : Ulid} {P Q : ℕ → Prop} {t : ThreadState} {m : Message}
  {page : ThreadPage} {cursor : ThreadCursor} {ms : List Message} {pos seq : ℕ}

/-- **What is held are replies of the thread**, in order, each once. -/
structure Sound (log : RoomLog) (rootId : Ulid) (t : ThreadState) : Prop where
  tidy : Tidy t.replies
  genuine : ∀ m ∈ t.replies, m ∈ log.changes ∧ m.threadRootId = some rootId

/-- **In the window nothing is missing** of the changes with these numbers. -/
def Full (log : RoomLog) (rootId : Ulid) (P : ℕ → Prop) (t : ThreadState) : Prop :=
  ∀ m ∈ log.changes, m.threadRootId = some rootId → P m.changeSeq →
    t.window.admits t.replies m.seq = true → Holds t.replies m

theorem seq_eq_of_id {x y : Message} (hx : x ∈ log.changes) (hy : y ∈ log.changes) (hid : x.id = y.id) :
    x.seq = y.seq :=
  congrArg Place.seq (log.wellFormed.place_eq hx hy hid)

theorem exists_seq_of_holds {replies : List Message} (hgenuine : ∀ x ∈ replies, x ∈ log.changes)
    (hm : m ∈ log.changes) (h : Holds replies m) : ∃ x ∈ replies, x.seq = m.seq := by
  obtain ⟨x, hx, hid, -⟩ := h
  exact ⟨x, hx, seq_eq_of_id (hgenuine x hx) hm hid⟩

/-- Numbers of which newer ones are full. -/
theorem Full.of_newer (h : Full log rootId P t)
    (hnewer : ∀ x ∈ log.changes, x.threadRootId = some rootId → Q x.changeSeq →
      ∃ y ∈ log.changes, y.threadRootId = some rootId ∧ P y.changeSeq ∧ y.id = x.id ∧
        x.changeSeq ≤ y.changeSeq) : Full log rootId Q t := by
  intro x hx hroot hQ hadmits
  obtain ⟨y, hy, hyroot, hP, hid, hle⟩ := hnewer x hx hroot hQ
  rw [← seq_eq_of_id hy hx hid] at hadmits
  obtain ⟨z, hz, hzid, hzle⟩ := h y hy hyroot hP hadmits
  exact ⟨z, hz, hzid.trans hid, hle.trans hzle⟩

/-! ## Messages that arrive -/

@[simp] theorem absorbReply_status : (absorbReply rootId m t).status = t.status := by
  unfold absorbReply
  split <;> rfl

theorem Sound.absorbReply (h : Sound log rootId t) (hm : m ∈ log.changes) :
    Sound log rootId (absorbReply rootId m t) := by
  unfold Hibari.absorbReply
  split
  · next hroot =>
    refine ⟨tidy_mergeRepliesIntoWindow h.tidy _ _, forall_mergeRepliesIntoWindow h.genuine ?_⟩
    intro x hx _
    rw [mem_singleton.mp hx]
    exact ⟨hm, hroot⟩
  · exact h

variable (hsound : Sound log rootId t)
include hsound

/-- **A message that arrives** is held, where it lies in the window. -/
theorem Full.absorbReply (h : Full log rootId P t) (hm : m ∈ log.changes)
    (hQ : ∀ c, Q c → P c ∨ c = m.changeSeq) : Full log rootId Q (absorbReply rootId m t) := by
  unfold Hibari.absorbReply
  split
  · intro x hx hxroot hx' hadmits
    have hgenuine : ∀ y ∈ mergeRepliesIntoWindow t.replies t.window [m], y ∈ log.changes :=
      forall_mergeRepliesIntoWindow (fun y hy => (hsound.genuine y hy).1)
        fun y hy _ => mem_singleton.mp hy ▸ hm
    have hbefore : t.window.admits t.replies x.seq = true := by
      refine admits_of_between (fun y hy => ?_) ?_ hadmits
      · exact exists_seq_of_holds hgenuine (hsound.genuine y hy).1
          (intoWindow_current hsound.tidy ⟨y, hy, rfl, le_rfl⟩)
      · refine forall_mergeRepliesIntoWindow (fun y hy => hsound.tidy.admits _ hy) fun y _ hy => hy
    rcases hQ x.changeSeq hx' with hP | heq
    · exact (h x hx hxroot hP hbefore).intoWindow_current hsound.tidy
    · obtain rfl := log.wellFormed.eq_of_changeSeq hx hm heq
      exact intoWindow_incoming (mem_singleton_self x) hbefore rfl le_rfl
  · next hroot =>
    intro x hx hxroot hx' hadmits
    rcases hQ x.changeSeq hx' with hP | heq
    · exact h x hx hxroot hP hadmits
    · exact absurd (log.wellFormed.eq_of_changeSeq hx hm heq ▸ hxroot) hroot

omit hsound

theorem Sound.absorbAll (h : Sound log rootId t) (hms : ∀ m ∈ ms, m ∈ log.changes) :
    Sound log rootId (ms.foldl (fun t m => Hibari.absorbReply rootId m t) t) := by
  induction ms generalizing t with
  | nil => exact h
  | cons m _ ih =>
    exact ih (h.absorbReply (hms m (.head _))) fun x hx => hms x (.tail _ hx)

include hsound

theorem Full.absorbAll (h : Full log rootId P t) (hms : ∀ m ∈ ms, m ∈ log.changes) :
    Full log rootId (fun c => P c ∨ c ∈ ms.map Message.changeSeq)
      (ms.foldl (fun t m => Hibari.absorbReply rootId m t) t) := by
  induction ms generalizing t P with
  | nil =>
    refine h.of_newer fun x hx hroot hc => ⟨x, hx, hroot, ?_, rfl, le_rfl⟩
    exact hc.resolve_right not_mem_nil
  | cons m _ ih =>
    have hm : m ∈ log.changes := hms m (.head _)
    have hfirst : Full log rootId (fun c => P c ∨ c = m.changeSeq) (Hibari.absorbReply rootId m t) :=
      h.absorbReply hsound hm fun _ hc => hc
    refine (ih (hsound.absorbReply hm) hfirst fun x hx => hms x (.tail _ hx)).of_newer ?_
    intro x hx hroot hc
    refine ⟨x, hx, hroot, ?_, rfl, le_rfl⟩
    rcases hc with hP | hc
    · exact .inl (.inl hP)
    · exact (mem_cons.mp hc).imp .inr id

omit hsound

theorem absorbAll_status (ms : List Message) (t : ThreadState) :
    (ms.foldl (fun t m => Hibari.absorbReply rootId m t) t).status = t.status := by
  induction ms generalizing t with
  | nil => rfl
  | cons _ _ ih => exact (ih _).trans absorbReply_status

/-! ## Pages that arrive -/

/-- **A page is complete**, with what is kept: what is not on it arrived after the room's row was read. -/
def Completes (log : RoomLog) (rootId : Ulid) (P : ℕ → Prop) (t : ThreadState) (page : ThreadPage)
    (cursor : ThreadCursor) : Prop :=
  ∀ m ∈ log.changes, m.threadRootId = some rootId → P m.changeSeq → page.covers cursor m.seq →
    Holds page.replies m ∨ page.lastChangeSeq < m.changeSeq ∧ Holds (PaneState.kept t cursor) m

theorem Sound.putPage (h : Sound log rootId t) (hshows : log.ShowsReplies rootId cursor page.replies) :
    Sound log rootId (putPage page t cursor) := by
  have hpage := hshows.genuine
  have halone : ∀ x ∈ mergeReplies [] page.replies, x ∈ log.changes ∧ x.threadRootId = some rootId :=
    forall_mergeReplies (fun _ hx => nomatch hx) hpage
  cases cursor with
  | latest =>
    refine ⟨?_, forall_mergeRepliesIntoWindow halone fun x hx _ => ?_⟩
    · exact tidy_mergeRepliesIntoWindow (tidy_mergeReplies _ _) _ _
    · exact h.genuine x (mem_of_mem_filter hx)
  | around => exact ⟨tidy_mergeReplies _ _, halone⟩
  | _ => exact ⟨tidy_mergeReplies _ _, forall_mergeReplies h.genuine hpage⟩

include hsound

/-- **The latest page**, with what arrived since. -/
theorem full_latest (hshows : log.ShowsReplies rootId .latest page.replies)
    (hcomplete : Completes log rootId P t page .latest) :
    Full log rootId P (Hibari.putPage page t .latest) := by
  intro m hm hroot hP hadmits
  have hnil : mergeReplies [] page.replies = page.replies := mergeReplies_nil_of_tidy hshows.tidy
  let arrived := t.replies.filter fun m => decide (m.changeSeq > page.lastChangeSeq)
  replace hadmits : Window.admits ⟨page.hasMore, false⟩ (mergeRepliesIntoWindow
    (mergeReplies [] page.replies) ⟨page.hasMore, false⟩ arrived) m.seq = true := hadmits
  show Holds (mergeRepliesIntoWindow (mergeReplies [] page.replies) ⟨page.hasMore, false⟩ arrived) m
  rw [hnil] at hadmits ⊢
  have hgenuine : ∀ x ∈ mergeRepliesIntoWindow page.replies ⟨page.hasMore, false⟩ arrived,
      x ∈ log.changes := by
    refine forall_mergeRepliesIntoWindow (fun x hx => (hshows.genuine x hx).1) fun x hx _ => ?_
    exact (hsound.genuine x (mem_of_mem_filter hx)).1
  have hpage : Window.admits ⟨page.hasMore, false⟩ page.replies m.seq = true := by
    refine admits_of_between (fun x hx => ?_) ?_ hadmits
    · exact exists_seq_of_holds hgenuine (hshows.genuine x hx).1
        (intoWindow_current hshows.tidy ⟨x, hx, rfl, le_rfl⟩)
    · exact forall_mergeRepliesIntoWindow (fun x hx => hshows.tidy.admits _ hx) fun x _ hx => hx
  rcases hcomplete m hm hroot hP hpage with hheld | ⟨hlast, x, hx, hid, hle⟩
  · exact hheld.intoWindow_current hshows.tidy
  · have harrived : x ∈ arrived := mem_filter.mpr ⟨hx, decide_eq_true (hlast.trans_le hle)⟩
    have hseq : x.seq = m.seq := seq_eq_of_id (hsound.genuine x hx).1 hm hid
    exact intoWindow_incoming harrived (hseq ▸ hpage) hid hle

omit hsound

/-- A page around a reply. -/
theorem full_around {messageId : Ulid}
    (hshows : log.ShowsReplies rootId (.around messageId) page.replies)
    (hcomplete : Completes log rootId P t page (.around messageId)) :
    Full log rootId P (Hibari.putPage page t (.around messageId)) := by
  intro m hm hroot hP hadmits
  replace hadmits : Window.admits ⟨page.hasMore, page.hasMoreAfter⟩ (mergeReplies [] page.replies)
    m.seq = true := hadmits
  show Holds (mergeReplies [] page.replies) m
  rw [mergeReplies_nil_of_tidy hshows.tidy] at hadmits ⊢
  rcases hcomplete m hm hroot hP hadmits with hheld | ⟨-, x, hx, -⟩
  · exact hheld
  · cases hx

include hsound

/-- The first reply of a window that is continued on the newer side stays the first. -/
theorem head_le_of_after
    (hshows : log.ShowsReplies rootId (.after seq) page.replies) {x o : Message} (hx : x ∈ t.replies)
    (hseq : x.seq = seq) (ho : t.replies.head? = some o)
    (hlow : ∀ o', (mergeReplies t.replies page.replies).head? = some o' → o'.seq ≤ pos) : o.seq ≤ pos := by
  have hbound : ∀ y ∈ mergeReplies t.replies page.replies, o.seq ≤ y.seq := by
    refine forall_mergeReplies (fun y hy => hsound.tidy.head_le ho hy) fun y hy => ?_
    have hbelow : seq < y.seq := hshows.side y hy
    exact (hsound.tidy.head_le ho hx).trans (hseq ▸ hbelow.le)
  obtain ⟨y, hy, -⟩ : Holds (mergeReplies t.replies page.replies) x :=
    mergeReplies_current hsound.tidy ⟨x, hx, rfl, le_rfl⟩
  obtain ⟨o', ho'⟩ := isSome_iff_exists.mp (isSome_head?.mpr (ne_nil_of_mem hy))
  exact (hbound o' (mem_of_mem_head? ho')).trans (hlow o' ho')

/-- **A page of newer replies**, after one that is still held. -/
theorem full_after (h : Full log rootId P t)
    (hshows : log.ShowsReplies rootId (.after seq) page.replies)
    (hcomplete : Completes log rootId P t page (.after seq))
    (hcontinues : ∃ x ∈ t.replies, x.seq = seq) :
    Full log rootId P (Hibari.putPage page t (.after seq)) := by
  intro m hm hroot hP hadmits
  show Holds (mergeReplies t.replies page.replies) m
  by_cases hbefore : t.window.admits t.replies m.seq = true
  · exact (h m hm hroot hP hbefore).mergeReplies_current hsound.tidy
  obtain ⟨x, hx, hseq⟩ := hcontinues
  obtain ⟨hlow, hhigh⟩ := admits_iff.mp hadmits
  have hlow' : t.hasOlder = true → ∀ o, t.replies.head? = some o → o.seq ≤ m.seq :=
    fun hold o ho => head_le_of_after hsound hshows hx hseq ho (hlow hold)
  -- so it lies beyond the last reply that was held
  have hbeyond : ∃ n, t.replies.getLast? = some n ∧ n.seq < m.seq := by
    by_contra hnone
    refine hbefore (admits_iff.mpr ⟨hlow', fun _ n hn => ?_⟩)
    exact not_lt.mp fun hlt => hnone ⟨n, hn, hlt⟩
  obtain ⟨n, hn, hlt⟩ := hbeyond
  have hcovers : page.covers (.after seq) m.seq := by
    refine ⟨?_, admits_iff.mpr ⟨fun hnever => (nomatch hnever), fun hmore last hlast => ?_⟩⟩
    · exact hseq ▸ (hsound.tidy.le_getLast hn hx).trans_lt hlt
    · have hbound : ∀ y ∈ mergeReplies t.replies page.replies, y.seq ≤ n.seq ∨ y.seq ≤ last.seq :=
        forall_mergeReplies (fun y hy => .inl (hsound.tidy.le_getLast hn hy))
          fun y hy => .inr (hshows.tidy.le_getLast hlast hy)
      obtain ⟨y, hy, -⟩ : Holds (mergeReplies t.replies page.replies) x :=
        mergeReplies_current hsound.tidy ⟨x, hx, rfl, le_rfl⟩
      obtain ⟨n', hn'⟩ := isSome_iff_exists.mp (getLast?_isSome.mpr (ne_nil_of_mem hy))
      have hle := hhigh hmore n' hn'
      exact (hbound n' (mem_of_getLast? hn')).elim
        (fun hsmall => absurd (hle.trans hsmall) hlt.not_ge) hle.trans
  rcases hcomplete m hm hroot hP hcovers with hheld | ⟨-, hheld⟩
  · exact hheld.mergeReplies_incoming
  · exact hheld.mergeReplies_current hsound.tidy

/-- The last reply of a window that is continued on the older side stays the last. -/
theorem le_getLast_of_before
    (hshows : log.ShowsReplies rootId (.before seq) page.replies) {x n : Message} (hx : x ∈ t.replies)
    (hseq : x.seq = seq) (hn : t.replies.getLast? = some n)
    (hhigh : ∀ n', (mergeReplies t.replies page.replies).getLast? = some n' → pos ≤ n'.seq) :
    pos ≤ n.seq := by
  have hbound : ∀ y ∈ mergeReplies t.replies page.replies, y.seq ≤ n.seq := by
    refine forall_mergeReplies (fun y hy => hsound.tidy.le_getLast hn hy) fun y hy => ?_
    have habove : y.seq < seq := hshows.side y hy
    exact (hseq ▸ habove.le : y.seq ≤ x.seq).trans (hsound.tidy.le_getLast hn hx)
  obtain ⟨y, hy, -⟩ : Holds (mergeReplies t.replies page.replies) x :=
    mergeReplies_current hsound.tidy ⟨x, hx, rfl, le_rfl⟩
  obtain ⟨n', hn'⟩ := isSome_iff_exists.mp (getLast?_isSome.mpr (ne_nil_of_mem hy))
  exact (hhigh n' hn').trans (hbound n' (mem_of_getLast? hn'))

/-- **A page of older replies**, before one that is still held. -/
theorem full_before (h : Full log rootId P t)
    (hshows : log.ShowsReplies rootId (.before seq) page.replies)
    (hcomplete : Completes log rootId P t page (.before seq))
    (hcontinues : ∃ x ∈ t.replies, x.seq = seq) :
    Full log rootId P (Hibari.putPage page t (.before seq)) := by
  intro m hm hroot hP hadmits
  show Holds (mergeReplies t.replies page.replies) m
  by_cases hbefore : t.window.admits t.replies m.seq = true
  · exact (h m hm hroot hP hbefore).mergeReplies_current hsound.tidy
  obtain ⟨x, hx, hseq⟩ := hcontinues
  obtain ⟨hlow, hhigh⟩ := admits_iff.mp hadmits
  have hhigh' : t.hasNewer = true → ∀ n, t.replies.getLast? = some n → m.seq ≤ n.seq :=
    fun hnew n hn => le_getLast_of_before hsound hshows hx hseq hn (hhigh hnew)
  -- so it lies below the first reply that was held
  have hbeyond : ∃ o, t.replies.head? = some o ∧ m.seq < o.seq := by
    by_contra hnone
    refine hbefore (admits_iff.mpr ⟨fun _ o ho => ?_, hhigh'⟩)
    exact not_lt.mp fun hlt => hnone ⟨o, ho, hlt⟩
  obtain ⟨o, ho, hlt⟩ := hbeyond
  have hcovers : page.covers (.before seq) m.seq := by
    refine ⟨?_, admits_iff.mpr ⟨fun hmore first hfirst => ?_, nofun⟩⟩
    · exact hseq ▸ hlt.trans_le (hsound.tidy.head_le ho hx)
    · have hbound : ∀ y ∈ mergeReplies t.replies page.replies, o.seq ≤ y.seq ∨ first.seq ≤ y.seq :=
        forall_mergeReplies (fun y hy => .inl (hsound.tidy.head_le ho hy))
          fun y hy => .inr (hshows.tidy.head_le hfirst hy)
      obtain ⟨y, hy, -⟩ : Holds (mergeReplies t.replies page.replies) x :=
        mergeReplies_current hsound.tidy ⟨x, hx, rfl, le_rfl⟩
      obtain ⟨o', ho'⟩ := isSome_iff_exists.mp (isSome_head?.mpr (ne_nil_of_mem hy))
      have hle := hlow hmore o' ho'
      exact (hbound o' (mem_of_mem_head? ho')).elim
        (fun hlarge => absurd (hlarge.trans hle) hlt.not_ge) fun hfirst' => hfirst'.trans hle
  rcases hcomplete m hm hroot hP hcovers with hheld | ⟨-, hheld⟩
  · exact hheld.mergeReplies_incoming
  · exact hheld.mergeReplies_current hsound.tidy

/-- **A page** leaves nothing out of the window. -/
theorem full_putPage (h : t.status = .ready → Full log rootId P t)
    (hshows : log.ShowsReplies rootId cursor page.replies)
    (hcomplete : Completes log rootId P t page cursor) (hcontinues : PaneState.Continues t cursor)
    (hready : (Hibari.putPage page t cursor).status = .ready) :
    Full log rootId P (Hibari.putPage page t cursor) := by
  cases cursor with
  | latest => exact full_latest hsound hshows hcomplete
  | around => exact full_around hshows hcomplete
  | after => exact full_after hsound (h hready) hshows hcomplete hcontinues
  | before => exact full_before hsound (h hready) hshows hcomplete hcontinues

end ThreadState

open ThreadState

namespace PaneState

variable {rootId : Ulid} {s s' : PaneState} {t : ThreadState} {m : Message} {a : PaneAction} {i j c : ℕ}
  {reads : Reads} {q : ThreadRequest}

/-! ## What is kept -/

/-- **What is so at every moment**: a thread that is loaded is complete in its window. -/
structure Complete (rootId : Ulid) (s : PaneState) : Prop where
  threaded : s.log.Threaded
  accountedLe : ∀ c, s.accounted c → c ≤ s.log.length
  asked : ∀ q ∈ s.inflight, s.opened ≤ q.asked
  sound : ∀ t, s.thread = some t → t.Sound s.log rootId
  full : ∀ t, s.thread = some t → t.status = .ready → t.Full s.log rootId s.accounted

theorem complete_of_init (h : (system rootId).init s) : s.Complete rootId := by
  obtain ⟨hopened, hthreaded, hseen, hthread, hinflight⟩ := h
  refine ⟨hthreaded, fun c hc => ?_, ?_, ?_, ?_⟩
  · rcases hc with hle | hmem
    · exact hle.trans hopened
    · exact absurd (hseen ▸ hmem) (Finset.notMem_empty c)
  · exact hinflight ▸ nofun
  · exact hthread ▸ nofun
  · exact hthread ▸ nofun

variable (h : s.Complete rootId)
include h

/-- A change commits: nothing that is accounted for is new. -/
theorem Complete.happen {log' : RoomLog} (hcommit : s.log.commit m = some log')
    (hroot : ∀ x ∈ s.log.changes, x.id = m.id → x.threadRootId = m.threadRootId) :
    ({ s with log := log' } : PaneState).Complete rootId := by
  unfold RoomLog.commit at hcommit
  split at hcommit
  case isFalse => cases hcommit
  next hadmissible =>
  cases hcommit
  have hlength : (s.log.changes ++ [m]).length = s.log.length + 1 := length_append
  refine ⟨?_, fun c hc => ?_, h.asked, fun t ht => ?_, fun t ht hready => ?_⟩
  · intro x hx y hy hid
    rcases mem_append.mp hx with hx' | hx' <;> rcases mem_append.mp hy with hy' | hy'
    · exact h.threaded x hx' y hy' hid
    · obtain rfl := mem_singleton.mp hy'
      exact hroot x hx' hid
    · obtain rfl := mem_singleton.mp hx'
      exact (hroot y hy' hid.symm).symm
    · rw [mem_singleton.mp hx', mem_singleton.mp hy']
  · show c ≤ (s.log.changes ++ [m]).length
    rw [hlength]
    exact (h.accountedLe c hc).trans (Nat.le_succ _)
  · have hsound := h.sound t ht
    exact ⟨hsound.tidy, fun x hx => ⟨mem_append_left _ (hsound.genuine x hx).1,
      (hsound.genuine x hx).2⟩⟩
  · intro x hx hxroot hc hadmits
    rcases mem_append.mp hx with hold | hnew
    · exact h.full t ht hready x hold hxroot hc hadmits
    · have hle := h.accountedLe x.changeSeq hc
      rw [mem_singleton.mp hnew, hadmissible.number] at hle
      exact absurd hle (Nat.lt_succ_self _).not_ge

/-- A change arrives. -/
theorem Complete.receive (hm : s.log.changes[j]? = some m) :
    ({ s with seen := insert m.changeSeq s.seen, thread := s.thread.map (absorbReply rootId m) } :
      PaneState).Complete rootId := by
  have hmem : m ∈ s.log.changes := mem_of_getElem? hm
  have hcases : ∀ c, c ≤ s.opened ∨ c ∈ insert m.changeSeq s.seen → s.accounted c ∨ c = m.changeSeq := by
    rintro c (hle | hseen)
    · exact .inl (.inl hle)
    · exact (Finset.mem_insert.mp hseen).symm.imp_left .inr
  refine ⟨h.threaded, fun c hc => ?_, h.asked, fun t' ht' => ?_, fun t' ht' hready => ?_⟩
  · rcases hcases c hc with hold | rfl
    · exact h.accountedLe c hold
    · exact (s.log.wellFormed.changeSeq_bounds hmem).2
  · obtain ⟨t, ht, rfl⟩ := map_eq_some_iff.mp ht'
    exact (h.sound t ht).absorbReply hmem
  · obtain ⟨t, ht, rfl⟩ := map_eq_some_iff.mp ht'
    rw [absorbReply_status] at hready
    exact (h.full t ht hready).absorbReply (h.sound t ht) hmem hcases

/-- **The changes after a number arrive**: of each message that changed the newest version, which stands
for those before it. -/
theorem Complete.sync (hreads : reads.Between c s.log.length) : ({ s with
        seen := s.seen ∪ arrivedWith c (s.changesAfter c reads)
        thread := s.thread.map fun t =>
          (s.changesAfter c reads).messages.foldl (fun t m => absorbReply rootId m t) t } :
      PaneState).Complete rootId := by
  let page := s.changesAfter c reads
  have hrows : ∀ m ∈ page.messages, m ∈ s.log.changes := fun m hm =>
    (s.log.mem_rowsAt.mp (s.log.mem_listMessages_afterChange reads hm)).1
  have hlast : page.lastChangeSeq = reads.room := s.log.lastChangeSeq_listMessages reads _ _
  have harrived : ∀ k ∈ arrivedWith c page, k ∈ page.messages.map Message.changeSeq ∨
      page.hasMore = false ∧ c < k ∧ k ≤ reads.room := by
    intro k hk
    unfold arrivedWith at hk
    split at hk
    · exact .inl (List.mem_toFinset.mp hk)
    · next hmore =>
      refine (Finset.mem_union.mp hk).imp List.mem_toFinset.mp fun hspan => ?_
      obtain ⟨hlt, hle⟩ := Finset.mem_Ioc.mp hspan
      exact ⟨Bool.not_eq_true _ ▸ hmore, hlt, hlast ▸ hle⟩
  refine ⟨h.threaded, fun k hk => ?_, h.asked, fun t' ht' => ?_, fun t' ht' hready => ?_⟩
  · rcases hk with hle | hmem
    · exact h.accountedLe k (.inl hle)
    · rcases Finset.mem_union.mp hmem with hseen | hnew
      · exact h.accountedLe k (.inr hseen)
      · rcases harrived k hnew with hmap | ⟨-, -, hle⟩
        · obtain ⟨x, hx, rfl⟩ := List.mem_map.mp hmap
          exact (s.log.wellFormed.changeSeq_bounds (hrows x hx)).2
        · exact hle.trans hreads.room_le
  · obtain ⟨t, ht, rfl⟩ := map_eq_some_iff.mp ht'
    exact (h.sound t ht).absorbAll hrows
  · obtain ⟨t, ht, rfl⟩ := map_eq_some_iff.mp ht'
    rw [absorbAll_status] at hready
    refine ((h.full t ht hready).absorbAll (h.sound t ht) hrows).of_newer fun x hx hroot hk => ?_
    rcases hk with hle | hmem
    · exact ⟨x, hx, hroot, .inl (.inl hle), rfl, le_rfl⟩
    · rcases Finset.mem_union.mp hmem with hseen | hnew
      · exact ⟨x, hx, hroot, .inl (.inr hseen), rfl, le_rfl⟩
      · rcases harrived _ hnew with hmap | ⟨hmore, hlt, hle⟩
        · exact ⟨x, hx, hroot, .inr hmap, rfl, le_rfl⟩
        · obtain ⟨y, hy, hplace, hxy⟩ := s.log.exists_mem_listMessages_afterChange reads
            (List.mem_map.mpr ⟨x, hx, rfl⟩) hlt (hle.trans hreads.first_after) hmore
          have hid : y.id = x.id := congrArg Place.id hplace
          exact ⟨y, hrows y hy, (h.threaded y (hrows y hy) x hx hid).trans hroot,
            .inr (List.mem_map.mpr ⟨y, hy, rfl⟩), hid, hxy⟩

/-- Changes are skipped: what lies in the window is held. -/
theorem Complete.skip (hturn : s.InTurn rootId (.skip c)) (hle : c ≤ s.log.length) :
    ({ s with seen := s.seen ∪ Finset.range (c + 1) } : PaneState).Complete rootId := by
  have hcases : ∀ k, k ≤ s.opened ∨ k ∈ s.seen ∪ Finset.range (c + 1) → s.accounted k ∨ k ≤ c := by
    rintro k (hopened | hmem)
    · exact .inl (.inl hopened)
    · exact (Finset.mem_union.mp hmem).imp .inr fun hrange =>
        Nat.le_of_lt_succ (Finset.mem_range.mp hrange)
  refine ⟨h.threaded, fun k hk => ?_, h.asked, h.sound, fun t ht hready x hx hroot hk hadmits => ?_⟩
  · exact (hcases k hk).elim (h.accountedLe k) fun hkc => hkc.trans hle
  · by_cases hold : s.accounted x.changeSeq
    · exact h.full t ht hready x hx hroot hold hadmits
    · exact hturn t ht hready x hx hroot ((hcases _ hk).resolve_left hold) hold hadmits

/-- A page is asked for. -/
theorem Complete.ask (cursor : ThreadCursor) (hsound : t.Sound s.log rootId)
    (hfull : t.status = .ready → t.Full s.log rootId s.accounted) :
    (s.ask cursor t).Complete rootId := by
  refine ⟨h.threaded, h.accountedLe, fun q hq => ?_, fun t' ht' => ?_, fun t' ht' hready => ?_⟩
  · rcases mem_append.mp hq with hold | hnew
    · exact h.asked q hold
    · rw [mem_singleton.mp hnew]
      exact h.accountedLe _ (.inl le_rfl)
  · exact some.inj ht' ▸ hsound
  · cases ht'
    exact hfull hready

theorem Complete.ask_of_replies {t' : ThreadState} (ht : s.thread = some t)
    (cursor : ThreadCursor) (hstatus : t'.status = t.status) (hreplies : t'.replies = t.replies)
    (hwindow : t'.window = t.window) : (s.ask cursor t').Complete rootId := by
  refine h.ask cursor ?_ fun hready x hx hroot hc hadmits => ?_
  · have hsound := h.sound t ht
    exact ⟨hreplies ▸ hsound.tidy, hreplies ▸ hsound.genuine⟩
  · rw [hreplies] at hadmits ⊢
    exact h.full t ht (hstatus ▸ hready) x hx hroot hc (hwindow ▸ hadmits)

theorem Complete.loadThread : s.loadThread.Complete rootId := by
  unfold PaneState.loadThread
  split
  · exact h
  · cases hthread : s.thread with
    | none =>
      refine h.ask .latest ⟨tidy_nil, fun x hx => nomatch hx⟩ fun hready => ?_
      exact nomatch hready
    | some => exact h.ask_of_replies hthread .latest rfl rfl rfl

/-- **A page arrives.** -/
theorem Complete.settle (hq : s.inflight[i]? = some q)
    (hreads : reads.Between q.asked s.log.length) (hturn : s.InTurn rootId (.settle i reads)) :
    ({ s with
        thread := s.thread.map fun t => putPage (s.pageOf rootId q reads) t q.cursor
        inflight := s.inflight.eraseIdx i } : PaneState).Complete rootId := by
  let page := s.pageOf rootId q reads
  have hshows : s.log.ShowsReplies rootId q.cursor page.replies :=
    s.log.showsReplies_listThreadMessages reads three_le_messagePageSize q.cursor
  have hlast : page.lastChangeSeq = reads.room := s.log.lastChangeSeq_listThreadMessages reads _ _
  refine ⟨h.threaded, h.accountedLe, fun q' hq' => h.asked q' (mem_of_mem_eraseIdx hq'),
    fun t' ht' => ?_, fun t' ht' hready => ?_⟩
  · obtain ⟨t, ht, rfl⟩ := map_eq_some_iff.mp ht'
    exact (h.sound t ht).putPage hshows
  · obtain ⟨t, ht, rfl⟩ := map_eq_some_iff.mp ht'
    obtain ⟨hcontinues, harrived⟩ := hturn q hq t ht
    refine full_putPage (h.sound t ht) (h.full t ht) hshows ?_ hcontinues hready
    intro m hm hroot hc hcovers
    rcases le_or_gt m.changeSeq reads.first with hfirst | hlate
    · exact .inl (s.log.holds_listThreadMessages reads h.threaded hreads three_le_messagePageSize hm
        hroot hfirst hcovers)
    · refine .inr ⟨?_, harrived m hm hroot hc hlate hcovers⟩
      rw [hlast]
      exact hreads.first_after.trans_lt hlate

/-- A page does not arrive. -/
theorem Complete.fail (notFound : Bool) : ({ s with
        thread := s.thread.map fun t => pageFailed notFound t q.cursor
        inflight := s.inflight.eraseIdx i } : PaneState).Complete rootId := by
  have hsame : ∀ t, (pageFailed notFound t q.cursor).replies = t.replies ∧
      (pageFailed notFound t q.cursor).window = t.window ∧
      ((pageFailed notFound t q.cursor).status = .ready → t.status = .ready) := by
    intro t
    cases q.cursor with
    | latest =>
      refine ⟨rfl, rfl, fun hready => ?_⟩
      replace hready : (if notFound then LoadStatus.notFound else .error) = .ready := hready
      split at hready <;> cases hready
    | _ => exact ⟨rfl, rfl, id⟩
  refine ⟨h.threaded, h.accountedLe, fun q' hq' => h.asked q' (mem_of_mem_eraseIdx hq'),
    fun t' ht' => ?_, fun t' ht' hready => ?_⟩
  · obtain ⟨t, ht, rfl⟩ := map_eq_some_iff.mp ht'
    have hsound := h.sound t ht
    exact ⟨(hsame t).1 ▸ hsound.tidy, (hsame t).1 ▸ hsound.genuine⟩
  · obtain ⟨t, ht, rfl⟩ := map_eq_some_iff.mp ht'
    obtain ⟨hreplies, hwindow, hstatus⟩ := hsame t
    intro x hx hroot hc hadmits
    rw [hreplies] at hadmits ⊢
    exact h.full t ht (hstatus hready) x hx hroot hc (hwindow ▸ hadmits)

theorem Complete.act (hturn : s.InTurn rootId a)
    (hact : PaneState.act rootId s a = some s') : s'.Complete rootId := by
  cases a with
  | happen m =>
    replace hact : (if ∀ x ∈ s.log.changes, x.id = m.id → x.threadRootId = m.threadRootId then
      (s.log.commit m).map fun log => { s with log := log } else none) = some s' := hact
    split at hact
    · next hroot =>
      obtain ⟨log', hcommit, rfl⟩ := map_eq_some_iff.mp hact
      exact h.happen hcommit hroot
    · cases hact
  | receive =>
    obtain ⟨m, hm, rfl⟩ := map_eq_some_iff.mp hact
    exact h.receive hm
  | sync c reads =>
    by_cases hguard : (∀ k ≤ c, s.accounted k) ∧ reads.Between c s.log.length
    · obtain rfl := some.inj ((if_pos hguard).symm.trans hact)
      exact h.sync hguard.2
    · exact nomatch (if_neg hguard).symm.trans hact
  | skip c =>
    by_cases hle : c ≤ s.log.length
    · obtain rfl := some.inj ((if_pos hle).symm.trans hact)
      exact h.skip hturn hle
    · exact nomatch (if_neg hle).symm.trans hact
  | loadThread =>
    cases hact
    exact h.loadThread
  | jumpToThreadMessage =>
    obtain ⟨t, ht, rfl⟩ := map_eq_some_iff.mp hact
    exact h.ask_of_replies (filter_eq_some_iff.mp ht).1 _ rfl rfl rfl
  | loadNewerThread =>
    obtain ⟨t, ht, hrest⟩ := bind_eq_some_iff.mp hact
    obtain ⟨newest, -, rfl⟩ := map_eq_some_iff.mp hrest
    exact h.ask_of_replies (filter_eq_some_iff.mp ht).1 _ rfl rfl rfl
  | loadOlderThread =>
    obtain ⟨t, ht, hrest⟩ := bind_eq_some_iff.mp hact
    obtain ⟨oldest, -, rfl⟩ := map_eq_some_iff.mp hrest
    exact h.ask_of_replies (filter_eq_some_iff.mp ht).1 _ rfl rfl rfl
  | settle _ reads =>
    obtain ⟨q, hq, hrest⟩ := bind_eq_some_iff.mp hact
    by_cases hreads : reads.Between q.asked s.log.length
    · obtain rfl := some.inj ((if_pos hreads).symm.trans hrest)
      exact h.settle hq hreads hturn
    · exact nomatch (if_neg hreads).symm.trans hrest
  | fail _ notFound =>
    obtain ⟨q, hq, rfl⟩ := map_eq_some_iff.mp hact
    exact h.fail notFound

/-! ## What is shown -/

omit h

/-- **What an open thread shows**: replies in order, without a hole, each in its newest version; and where
there is nothing more on a side, the last of that side. -/
structure Shows (log : RoomLog) (rootId : Ulid) (t : ThreadState) : Prop where
  ascending : t.replies.Pairwise (fun a b => a.seq < b.seq)
  noHole : ∀ o ∈ t.replies, ∀ n ∈ t.replies, ∀ m ∈ log.changes, m.threadRootId = some rootId →
    o.seq ≤ m.seq → m.seq ≤ n.seq → Holds t.replies m
  newest : t.hasNewer = false → ∀ m ∈ log.changes, m.threadRootId = some rootId →
    ∃ n ∈ t.replies, m.seq ≤ n.seq
  oldest : t.hasOlder = false → ∀ m ∈ log.changes, m.threadRootId = some rootId →
    ∃ o ∈ t.replies, o.seq ≤ m.seq

/-- A window in which nothing is missing shows what it should. -/
theorem shows_of_full {log : RoomLog} (hsound : t.Sound log rootId)
    (hfull : t.Full log rootId fun c => c ≤ log.length) : Shows log rootId t := by
  have hholds : ∀ m ∈ log.changes, m.threadRootId = some rootId →
      t.window.admits t.replies m.seq = true → Holds t.replies m := fun m hm hroot hadmits =>
    hfull m hm hroot (log.wellFormed.changeSeq_bounds hm).2 hadmits
  have hseq : ∀ m ∈ log.changes, Holds t.replies m → ∃ x ∈ t.replies, x.seq = m.seq := fun m hm =>
    exists_seq_of_holds (fun x hx => (hsound.genuine x hx).1) hm
  refine ⟨?_, fun o ho n hn m hm hroot hle hge => hholds m hm hroot ?_, fun hnewer m hm hroot => ?_,
    fun holder m hm hroot => ?_⟩
  · refine (hsound.tidy.sorted.and (pairwise_map.mp hsound.tidy.distinct)).imp_of_mem ?_
    intro x y hx hy hxy
    refine lt_of_le_of_ne hxy.1 fun heq => hxy.2 ?_
    exact log.wellFormed.id_eq_of_seq (hsound.genuine x hx).1 (hsound.genuine y hy).1 heq
  · refine admits_iff.mpr ⟨fun _ first hfirst => ?_, fun _ last hlast => ?_⟩
    · exact (hsound.tidy.head_le hfirst ho).trans hle
    · exact hge.trans (hsound.tidy.le_getLast hlast hn)
  · by_contra hnone
    have hlater : ∀ n ∈ t.replies, n.seq < m.seq := fun n hn => not_le.mp fun hle => hnone ⟨n, hn, hle⟩
    have hadmits : t.window.admits t.replies m.seq = true := by
      refine admits_iff.mpr ⟨fun _ o ho => (hlater o (mem_of_mem_head? ho)).le, ?_⟩
      exact fun hnever => absurd (hnewer.symm.trans hnever) Bool.false_ne_true
    obtain ⟨x, hx, heq⟩ := hseq m hm (hholds m hm hroot hadmits)
    exact (hlater x hx).ne heq
  · by_contra hnone
    have hearlier : ∀ o ∈ t.replies, m.seq < o.seq := fun o ho =>
      not_le.mp fun hle => hnone ⟨o, ho, hle⟩
    have hadmits : t.window.admits t.replies m.seq = true := by
      refine admits_iff.mpr ⟨?_, fun _ n hn => (hearlier n (mem_of_getLast? hn)).le⟩
      exact fun hnever => absurd (holder.symm.trans hnever) Bool.false_ne_true
    obtain ⟨x, hx, heq⟩ := hseq m hm (hholds m hm hroot hadmits)
    exact (hearlier x hx).ne' heq

/-- **An open thread never loses a reply**: where the room's cursor is caught up, a thread that is loaded
shows what it should. -/
theorem pane_complete (hs : (system rootId).ReachableBy (fun s a => s.InTurn rootId a) s)
    (ht : s.thread = some t) (hready : t.status = .ready)
    (hcaughtUp : ∀ c ≤ s.log.length, s.accounted c) : Shows s.log rootId t := by
  have h : s.Complete rootId := hs.invariant (I := Complete rootId) (fun _ => complete_of_init)
    fun _ _ _ h hturn hact => h.act hturn hact
  refine shows_of_full (h.sound t ht) ?_
  exact (h.full t ht hready).of_newer fun x hx hroot hc => ⟨x, hx, hroot, hcaughtUp _ hc, rfl, le_rfl⟩

/-! ## A reply during a jump -/

/-- A room in which nothing was said. -/
def quiet : PaneState := ⟨RoomLog.empty, 0, ∅, none, []⟩

/-- A reply in thread 100, at position `n`. -/
def replyAt (n : ℕ) : Message := { Message.said 2 n n with threadRootId := some 100 }

/-- Somebody replies, the thread is opened, and the user jumps to the reply while somebody replies again. -/
def repliedDuringJump : List PaneAction := [.happen (replyAt 1), .receive 0, .loadThread,
  .settle 0 ⟨1, 1, 1, 1⟩, .jumpToThreadMessage 1, .happen (replyAt 2), .receive 1]

theorem quiet_init : (system 100).init quiet :=
  ⟨le_rfl, fun _ h => absurd h not_mem_nil, rfl, rfl, rfl⟩

/-- The page around the reply is read after the second one. -/
theorem pane_complete_jump : ∃ s t, (system 100).ReachableBy (fun s a => s.InTurn 100 a) s ∧
    s.thread = some t ∧ t.replies = [replyAt 1, replyAt 2] ∧ Shows s.log 100 t := by
  have hrun : ((system 100).runBy (fun s a => s.InTurn 100 a) quiet
      (repliedDuringJump ++ [.settle 0 ⟨2, 2, 2, 2⟩])).any (fun s => s.thread.any fun t =>
        decide (t.status = .ready ∧ (∀ c ≤ s.log.length, s.accounted c) ∧
          t.replies = [replyAt 1, replyAt 2])) = true := by decide +kernel
  obtain ⟨s, hreach, htest⟩ := TransitionSystem.exists_of_runBy hrun quiet_init
  obtain ⟨t, ht, htest⟩ := (Option.any_eq_true _ _).mp htest
  obtain ⟨hready, hcaughtUp, hreplies⟩ := of_decide_eq_true htest
  exact ⟨s, t, hreach, ht, hreplies, pane_complete hreach ht hready hcaughtUp⟩

/-- **A reply during a jump is lost**: the page was read before it, and replaces what arrived. -/
theorem jump_loses_reply : ∃ s t, (system 100).Reachable s ∧ s.thread = some t ∧ t.status = .ready ∧
    (∀ c ≤ s.log.length, s.accounted c) ∧ ¬ Shows s.log 100 t := by
  have hrun : ((system 100).run quiet (repliedDuringJump ++ [.settle 0 ⟨1, 1, 1, 1⟩])).any
      (fun s => s.thread.any fun t => decide (t.status = .ready ∧ (∀ c ≤ s.log.length, s.accounted c) ∧
        t.hasNewer = false ∧ replyAt 2 ∈ s.log.changes ∧ ∀ n ∈ t.replies, n.seq ≤ 1)) = true := by
    decide +kernel
  obtain ⟨s, hreach, htest⟩ := TransitionSystem.exists_of_run hrun quiet_init
  obtain ⟨t, ht, htest⟩ := (Option.any_eq_true _ _).mp htest
  obtain ⟨hready, hcaughtUp, hnewer, hmem, hearly⟩ := of_decide_eq_true htest
  refine ⟨s, t, hreach, ht, hready, hcaughtUp, fun h => ?_⟩
  obtain ⟨n, hn, hle⟩ := h.newest hnewer (replyAt 2) hmem rfl
  exact absurd (hle.trans (hearly n hn)) (by decide)

end PaneState

end Hibari
