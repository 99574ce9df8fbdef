import Hibari.RoomSync

/-!
# What the cursor of a timeline is worth

The results about rooms and the clients that follow them.

Without paging the cursor is sound in every run: each change up to it, to a
message of the channel inside the loaded window, is held
(`exists_newer_of_le_changeSeq`). With paging it is not. A page of history
that was read before a change and arrives after the cursor passed it puts the
old version into the window for good, and it does so exactly when it is not
fresh (`reflecting_answered_iff_fresh`). A page that was asked for at an edge
and arrives when the window has moved leaves a hole; a run in which no page
does either has none (`exists_of_between`).
-/

namespace Hibari

open List Option TransitionSystem Bool

namespace RoomSync

variable {s s₀ s₁ s₂ s₃ : RoomSync} {watch : Watch}
  {log : RoomLog} {current incoming : List Message} {window : Window} {t : TimelineState}
    {paging : Paging} {request : Request}

/-! ## A room to try things on -/

/-- Version `changeSeq` of the `n`th message of a room, posted to the channel
by somebody. -/
def note (n changeSeq : ℕ) : Message := .said 7 n changeSeq

/-- A room without messages, which user 1 has not opened. -/
def unopened : RoomSync := ⟨.empty, ⟨1, none, false⟩, none, none, none, []⟩

theorem unopened_init : system.init unopened := ⟨rfl, rfl, rfl, rfl⟩

/-- All statements of a request reading at one moment. -/
def readsAt (T : ℕ) : Reads := ⟨T, T, T, T⟩

/-! ## Opening, events and catching up -/

/-- **The cursor is sound.** However a client opens a room, catches up and
receives events – late, twice, or never –, a ready timeline holds each change
up to its cursor to a message of the channel inside its window: the version
that the change made, or a newer one. -/
theorem exists_newer_of_le_changeSeq
    (h : system.ReachableBy (fun _ a => a.isPaging = false) s) {t : TimelineState}
    (ht : s.timeline = some t) (hready : t.status = .ready) {x : Message}
    (hx : x ∈ s.log.changes) (hk : x.changeSeq ≤ t.changeSeq) (hch : inChannel x = true)
    (holder : t.hasOlder = true → ∀ o, t.messages.head? = some o → o.seq ≤ x.seq)
    (hnewer : t.hasNewer = true → ∀ n, t.messages.getLast? = some n → x.seq ≤ n.seq) :
    ∃ m ∈ t.messages, m.id = x.id ∧ x.changeSeq ≤ m.changeSeq := by
  have hsound : Sound .changes s :=
    sound_of_reachableBy (h.mono fun _ _ ha => admitted_of_not_paging ha)
  have hwin : x.place ∈ t.answersFor := ⟨hch, Window.admits_iff.mpr ⟨holder, hnewer⟩⟩
  obtain ⟨v, hkv, hv⟩ :=
    hsound.reflecting t ht hready x.changeSeq x.place hk (RoomLog.touch_of_mem hx) hwin
  obtain ⟨m, hm, hp, rfl⟩ := exists_of_held hv
  exact ⟨m, hm, congrArg Place.id hp, hkv⟩

/-- What an edit leaves in a room that was open when another message was
posted and the event of it was lost: the edit, once the client caught up. -/
theorem exists_newer_of_lost_event : ∃ s t, s.timeline = some t ∧ t.changeSeq = 3 ∧
    system.ReachableBy (fun _ a => a.isPaging = false) s ∧
    ∃ m ∈ t.messages, m.id = 1 ∧ 3 ≤ m.changeSeq := by
  let actions : List Action := [.commit (note 1 1), .openRoom,
    .pageAnswered (readsAt 1) [note 1 1] (some 0) 1, .commit (note 2 2), .commit (note 1 3),
    .receive (note 1 3), .changesAnswered (readsAt 3) [note 2 2, note 1 3]]
  let test (s : RoomSync) : Bool := decide (note 1 3 ∈ s.log.changes) && s.timeline.any (fun t =>
    decide (t.status = .ready ∧ t.changeSeq = 3 ∧ t.hasOlder = false ∧ t.hasNewer = false))
  have hrun : (system.run unopened actions).any test = true := by decide +kernel
  obtain ⟨s, hs, htest⟩ := (Option.any_eq_true _ _).mp hrun
  have hreach : system.ReachableBy (fun _ a => a.isPaging = false) s :=
    reachableBy_of_run unopened_init
      (fun a ha _ => (by decide : ∀ a ∈ actions, a.isPaging = false) a ha) hs
  obtain ⟨hmem, ht⟩ := (Bool.and_eq_true _ _).mp htest
  obtain ⟨t, ht, hprops⟩ := (Option.any_eq_true _ _).mp ht
  obtain ⟨hready, hcursor, holder, hnewer⟩ := of_decide_eq_true hprops
  refine ⟨s, t, ht, hcursor, hreach, ?_⟩
  exact exists_newer_of_le_changeSeq hreach ht hready (of_decide_eq_true hmem) hcursor.ge rfl
    (fun h => absurd (holder.symm.trans h) Bool.false_ne_true)
    (fun h => absurd (hnewer.symm.trans h) Bool.false_ne_true)

/-! ## Paging past the cursor -/

/-- What stays of a timeline while messages arrive: it is ready, the page that
was asked for still finds its edge, and the side it is on stays open. -/
structure Awaiting (paging : Paging) (t : TimelineState) : Prop where
  ready : t.status = .ready
  joined : Joined paging t
  older : ∀ b, paging = .older b → t.hasOlder = true
  newer : ∀ a, paging = .newer a → t.hasNewer = true

/-- A merge into a window that is open on the older side keeps its first
position. -/
theorem head?_seq_mergeIntoWindow (htidy : Tidy current) (hcur : Genuine log current)
    (hinc : Genuine log incoming) (hopen : window.hasOlder = true) {b : ℕ}
    (hb : current.head?.map Message.seq = some b) :
    (mergeIntoWindow current window incoming).head?.map Message.seq = some b := by
  obtain ⟨o, ho, rfl⟩ := map_eq_some_iff.mp hb
  have hlow : ∀ m ∈ mergeIntoWindow current window incoming, o.seq ≤ m.seq :=
    forall_stamp_mergeIntoWindow (Q := fun st => o.seq ≤ st.place.seq)
      (fun m hm => htidy.head_le ho hm) (fun m _ hm => (Window.admits_iff.mp hm).1 hopen o ho)
  obtain ⟨v, -, hv⟩ := exists_held_mergeIntoWindow htidy hcur hinc window
    (held_of_mem (mem_of_mem_head? ho))
  obtain ⟨m, hm, hp, -⟩ := exists_of_held hv
  obtain ⟨o', ho'⟩ := isSome_iff_exists.mp (isSome_head?.mpr (ne_nil_of_mem hm))
  rw [ho', map_some]
  refine congrArg some (le_antisymm ?_ (hlow o' (mem_of_mem_head? ho')))
  exact ((tidy_mergeIntoWindow htidy window incoming).head_le ho' hm).trans
    (congrArg Place.seq hp).le

/-- A merge into a window that is open on the newer side keeps its last
position. -/
theorem getLast?_seq_mergeIntoWindow (htidy : Tidy current) (hcur : Genuine log current)
    (hinc : Genuine log incoming) (hopen : window.hasNewer = true) {a : ℕ}
    (ha : current.getLast?.map Message.seq = some a) :
    (mergeIntoWindow current window incoming).getLast?.map Message.seq = some a := by
  obtain ⟨n, hn, rfl⟩ := map_eq_some_iff.mp ha
  have hhigh : ∀ m ∈ mergeIntoWindow current window incoming, m.seq ≤ n.seq :=
    forall_stamp_mergeIntoWindow (Q := fun st => st.place.seq ≤ n.seq)
      (fun m hm => htidy.le_getLast hn hm) (fun m _ hm => (Window.admits_iff.mp hm).2 hopen n hn)
  obtain ⟨v, -, hv⟩ := exists_held_mergeIntoWindow htidy hcur hinc window
    (held_of_mem (mem_of_getLast? hn))
  obtain ⟨m, hm, hp, -⟩ := exists_of_held hv
  obtain ⟨n', hn'⟩ :=
    isSome_iff_exists.mp (getLast?_isSome.mpr (ne_nil_of_mem hm))
  rw [hn', map_some]
  refine congrArg some (le_antisymm (hhigh n' (mem_of_getLast? hn')) ?_)
  exact (congrArg Place.seq hp).ge.trans
    ((tidy_mergeIntoWindow htidy window incoming).le_getLast hn' hm)

/-- A message that arrives is merged into the window, or is not needed. -/
theorem receiveMessage_messages (viewer : Viewer) (message : Message) (hready : t.status = .ready) :
    (receiveMessage viewer message t).1.window = t.window ∧
      ((receiveMessage viewer message t).1.messages = t.messages ∨
        (receiveMessage viewer message t).1.messages
          = mergeIntoWindow t.messages t.window [message]) := by
  unfold receiveMessage
  rw [if_neg (by rw [hready]; exact LoadStatus.noConfusion)]
  split
  · exact ⟨rfl, .inl rfl⟩
  · exact ⟨afterNewMessages_window, .inr afterNewMessages_messages⟩

/-- **The edge that a page was asked for does not move while messages
arrive.** -/
theorem awaiting_receiveMessage (h : Awaiting paging t) (hc : Consistent log t) {viewer : Viewer} {message : Message}
    (hm : log.touch message.changeSeq message.place) :
    Awaiting paging (receiveMessage viewer message t).1 := by
  obtain ⟨hwin, hmessages⟩ := receiveMessage_messages viewer message h.ready
  have holderEq : (receiveMessage viewer message t).1.hasOlder = t.hasOlder :=
    congrArg Window.hasOlder hwin
  have hnewerEq : (receiveMessage viewer message t).1.hasNewer = t.hasNewer :=
    congrArg Window.hasNewer hwin
  have hready : (receiveMessage viewer message t).1.status = .ready :=
    receiveMessage_status.trans h.ready
  refine ⟨hready, ?_, fun b hb => holderEq.trans (h.older b hb),
    fun a ha => hnewerEq.trans (h.newer a ha)⟩
  cases paging with
  | older b =>
    intro _
    cases hmessages with
    | inl hsame => rw [hsame]; exact h.joined h.ready
    | inr hmerged =>
      rw [hmerged]
      exact head?_seq_mergeIntoWindow hc.tidy hc.genuine (genuine_singleton hm) (h.older b rfl)
        (h.joined h.ready)
  | newer a =>
    intro _
    cases hmessages with
    | inl hsame => rw [hsame]; exact h.joined h.ready
    | inr hmerged =>
      rw [hmerged]
      exact getLast?_seq_mergeIntoWindow hc.tidy hc.genuine (genuine_singleton hm) (h.newer a rfl)
        (h.joined h.ready)
  | _ => exact hready

/-- A request awaits its page from a ready timeline. -/
theorem awaiting_of_ask {t' : TimelineState}
    (h : ask request t = some (paging, t')) : Awaiting paging t' := by
  obtain ⟨hready, older, newer, rfl⟩ := ask_eq h
  cases request with
  | loadOlder =>
    rw [ask, Hibari.loadOlder] at h
    split at h
    · cases h
    · next hguard =>
      obtain ⟨o, ho, hpair⟩ := map_eq_some_iff.mp h
      cases hpair
      have hopen : t.hasOlder = true := by
        by_contra hno
        exact hguard (.inr (.inl (eq_false_iff.mpr hno)))
      exact ⟨hready, fun _ => by rw [ho, map_some], fun _ _ => hopen,
        fun _ ha => Paging.noConfusion ha⟩
  | loadNewer =>
    rw [ask, Hibari.loadNewer] at h
    split at h
    · cases h
    · next hguard =>
      obtain ⟨n, hn, hpair⟩ := map_eq_some_iff.mp h
      cases hpair
      have hopen : t.hasNewer = true := by
        by_contra hno
        exact hguard (.inr (.inl (eq_false_iff.mpr hno)))
      exact ⟨hready, fun _ => by rw [hn, map_some], fun _ hb => Paging.noConfusion hb,
        fun _ _ => hopen⟩
  | jumpToMessage =>
    rw [ask, Hibari.jumpToMessage, if_pos hready] at h
    obtain ⟨rfl, -⟩ := Prod.mk.inj (some.inj h)
    exact ⟨hready, hready, fun _ hb => Paging.noConfusion hb, fun _ ha => Paging.noConfusion ha⟩
  | jumpToUnread =>
    rw [ask, Hibari.jumpToUnread, if_pos hready] at h
    obtain ⟨a, -, hpair⟩ := map_eq_some_iff.mp h
    obtain ⟨rfl, -⟩ := Prod.mk.inj hpair
    exact ⟨hready, hready, fun _ hb => Paging.noConfusion hb, fun _ ha => Paging.noConfusion ha⟩

/-- What holds while the page is awaited. -/
structure AwaitingRoom (watch : Watch) (request : PagingRequest) (others : List PagingRequest)
    (s : RoomSync) : Prop where
  consistent : ConsistentRoom s
  reflecting : ReflectingRoom watch s
  awaiting : ∀ t, s.timeline = some t → Awaiting request.paging t
  paging : s.paging = others ++ [request]

theorem receive_paging (s : RoomSync) (message : Message) :
    (s.receive message).paging = s.paging := by
  unfold receive
  split
  · rfl
  · simp only
    split
    · unfold syncTimeline syncOnce
      split
      · rfl
      · split
        · split <;> rfl
        · rfl
    · rfl

theorem awaitingRoom_step {request : PagingRequest} {others : List PagingRequest}
    (h : AwaitingRoom watch request others s) {a : Action} (ha : a.isDelivery = true)
    (hs : s.step a = some s₁) : AwaitingRoom watch request others s₁ := by
  have hc := consistentRoom_step h.consistent hs
  cases a with
  | commit =>
    obtain ⟨log', hlog, rfl⟩ := map_eq_some_iff.mp hs
    exact ⟨hc, fun t ht hr => reflecting_commit hlog (h.consistent t ht) (h.reflecting t ht hr),
      h.awaiting, h.paging⟩
  | receive message =>
    rw [step] at hs
    split at hs
    · next hmem =>
      cases hs
      refine ⟨hc, fun t ht hr => ?_, fun t ht => ?_, (receive_paging s message).trans h.paging⟩
      · rw [receive_timeline] at ht
        rw [receive_log]
        obtain ⟨t₀, ht₀, rfl⟩ := map_eq_some_iff.mp ht
        rw [receiveMessage_status] at hr
        exact (h.reflecting t₀ ht₀ hr).receiveMessage (h.consistent t₀ ht₀) hr hmem
      · rw [receive_timeline] at ht
        obtain ⟨t₀, ht₀, rfl⟩ := map_eq_some_iff.mp ht
        exact awaiting_receiveMessage (h.awaiting t₀ ht₀) (h.consistent t₀ ht₀) hmem
    · cases hs
  | _ => exact absurd ha (by simp [Action.isDelivery])

/-- **A page of history keeps the cursor sound exactly when it is fresh.** Take a
ready timeline that keeps the promise of its cursor, whatever happened before;
let the viewer ask for a page; let the server commit changes and events arrive
while it is awaited; and let the page arrive. Then the timeline keeps the
promise – and goes on keeping it through every catch-up that follows, where
nothing else was in flight that would undo it – if and only if no change to a
message in the page's range was committed after the page was read and is
counted by the cursor when it arrives. -/
theorem reflecting_answered_iff_fresh {P : RoomSync → Action → Prop}
    (h₀ : system.ReachableBy P s₀) {t₀ t₂ : TimelineState} (ht₀ : s₀.timeline = some t₀)
    (hr₀ : Reflecting s₀.log .changes t₀)
    {request : Request} {paging : Paging} {t₁ : TimelineState}
    (hask : ask request t₀ = some (paging, t₁))
    (h₁ : s₀.step (.request request) = some s₁)
    (h₂ : system.Steps (fun _ a => a.isDelivery = true) s₁ s₂)
    {reads : Reads} {messages : List Message} {page : MessagePage}
    (hpage : s₂.answer s₀.log.length reads paging.cursor messagePageSize messages = some page)
    (ht₂ : s₂.timeline = some t₂)
    (h₃ : s₂.step (.pagingAnswered s₀.paging.length reads messages) = some s₃) :
    (ReflectingRoom .changes s₃ ∧
      (Settled s₀ → ∀ s₄, system.Steps (fun _ a => a.isPaging = false) s₃ s₄ →
        ReflectingRoom .changes s₄)) ↔
      Fresh s₂.log .changes reads paging page t₂ := by
  have hc₀ := consistentRoom_of_reachableBy h₀
  have hc₁ := consistentRoom_step hc₀ h₁
  -- the request leaves the timeline as it was, with the page awaited
  have hs₁ : s₁ = { s₀ with
      timeline := some t₁, paging := s₀.paging ++ [⟨paging, s₀.log.length⟩] } := by
    rw [step, ht₀, bind_some, hask] at h₁
    exact (Option.some.inj h₁).symm
  obtain ⟨-, older, newer, hset⟩ := ask_eq hask
  have hawait₁ : AwaitingRoom .changes ⟨paging, s₀.log.length⟩ s₀.paging s₁ := by
    refine ⟨hc₁, fun t ht _ => ?_, fun t ht => ?_, by rw [hs₁]⟩
    · rw [hs₁] at ht ⊢
      obtain rfl : t₁ = t := Option.some.inj ht
      rw [hset]
      exact hr₀
    · rw [hs₁] at ht
      obtain rfl : t₁ = t := Option.some.inj ht
      exact awaiting_of_ask hask
  have hawait₂ : AwaitingRoom .changes ⟨paging, s₀.log.length⟩ s₀.paging s₂ :=
    h₂.preserves (fun _ _ _ hI ha hs => awaitingRoom_step hI ha hs) hawait₁
  have hrequest : s₂.paging[s₀.paging.length]? = some ⟨paging, s₀.log.length⟩ := by
    rw [hawait₂.paging, getElem?_concat_length]
  have hjoined := (hawait₂.awaiting t₂ ht₂).joined
  have hready₂ := (hawait₂.awaiting t₂ ht₂).ready
  have hs₃ : s₃ = s₂.pagingAnswered s₀.paging.length paging page := by
    rw [step, hrequest] at h₃
    simp only [hpage, map_some] at h₃
    exact (Option.some.inj h₃).symm
  -- the timeline after the answer is the one the page makes of the timeline before
  have hiff : ReflectingRoom .changes s₃ ↔ Fresh s₂.log .changes reads paging page t₂ := by
    obtain ⟨hb, hpage'⟩ := answer_eq_some hpage
    rw [← reflecting_applyPaging_iff hpage' hb.first_after (hawait₂.consistent t₂ ht₂) hready₂
      (hawait₂.reflecting t₂ ht₂ hready₂) hjoined, hs₃]
    have ht₃ : (s₂.pagingAnswered s₀.paging.length paging page).timeline
        = some (paging.apply page t₂) := by
      rw [pagingAnswered_timeline, ht₂, map_some]
    have hready₃ : (paging.apply page t₂).status = .ready := by
      cases paging with
      | jump | unread => rfl
      | _ => exact hready₂
    constructor
    · intro h
      exact pagingAnswered_log s₂ _ paging page ▸ h _ ht₃ hready₃
    · intro h t ht _
      obtain rfl : paging.apply page t₂ = t := Option.some.inj (ht₃.symm.trans ht)
      rw [pagingAnswered_log]
      exact h
  refine ⟨fun h => hiff.mp h.1, fun hfresh => ⟨hiff.mpr hfresh, fun hsettled s₄ h₄ => ?_⟩⟩
  have hset₁ : Settled s₁ := settled_step (a := .request request) hc₀ hsettled trivial h₁
  have hset₂ : Settled s₂ := by
    refine (h₂.preserves (I := fun s => ConsistentRoom s ∧ Settled s)
      (fun s a s' hI ha hs => ⟨consistentRoom_step hI.1 hs, settled_step hI.1 hI.2 ?_ hs⟩)
      ⟨hc₁, hset₁⟩).2
    cases a with
    | pagingAnswered => exact absurd ha (by simp [Action.isDelivery])
    | _ => trivial
  have hj : JoinedStep s₂ (.pagingAnswered s₀.paging.length reads messages) := by
    intro request' hrequest' t ht
    obtain rfl : t₂ = t := Option.some.inj (ht₂.symm.trans ht)
    rw [← Option.some.inj (hrequest.symm.trans hrequest')]
    exact hjoined
  have hsound₃ : Sound .changes s₃ :=
    ⟨consistentRoom_step hawait₂.consistent h₃, settled_step hawait₂.consistent hset₂ hj h₃,
      hiff.mpr hfresh⟩
  exact (hsound₃.steps h₄).reflecting

/-- A room of two messages of which the first is read: the viewer jumps to the
unread one and then asks for what is before it. -/
def readingBack : List Action := [.commit (note 1 1), .commit (note 2 2), .openRoom,
  .pageAnswered (readsAt 2) [note 1 1, note 2 2] (some 1) 1, .openSettled,
  .request .jumpToUnread, .pagingAnswered 0 (readsAt 2) [note 2 2]]

/-- The states before a request, after it, before its answer and after it, in
a run that starts with some actions and delivers others in between. -/
def episode (start : List Action) (request : Request) (delivered : List Action) (reads : Reads)
    (messages : List Message) : Option (RoomSync × RoomSync × RoomSync × RoomSync) :=
  (system.run unopened start).bind fun s₀ =>
    (s₀.step (.request request)).bind fun s₁ =>
      (system.run s₁ delivered).bind fun s₂ =>
        (s₂.step (.pagingAnswered s₀.paging.length reads messages)).map fun s₃ => (s₀, s₁, s₂, s₃)

theorem episode_spec {start delivered : List Action} {reads : Reads} {messages : List Message}
    (hdelivered : ∀ a ∈ delivered, a.isDelivery = true)
    (h : episode start request delivered reads messages = some (s₀, s₁, s₂, s₃)) :
    system.Reachable s₀ ∧ s₀.step (.request request) = some s₁ ∧
      system.Steps (fun _ a => a.isDelivery = true) s₁ s₂ ∧
      s₂.step (.pagingAnswered s₀.paging.length reads messages) = some s₃ := by
  obtain ⟨t₀, h₀, h⟩ := bind_eq_some_iff.mp h
  obtain ⟨t₁, h₁, h⟩ := bind_eq_some_iff.mp h
  obtain ⟨t₂, h₂, h⟩ := bind_eq_some_iff.mp h
  obtain ⟨t₃, h₃, heq⟩ := map_eq_some_iff.mp h
  obtain ⟨rfl, rfl, rfl, rfl⟩ : t₀ = s₀ ∧ t₁ = s₁ ∧ t₂ = s₂ ∧ t₃ = s₃ := by
    simpa only [Prod.mk.injEq] using heq
  exact ⟨reachableBy_of_run unopened_init (fun _ _ _ => trivial) h₀, h₁,
    steps_of_run (fun a ha _ => hdelivered a ha) h₂, h₃⟩

/-- The third message is posted while the first is awaited; the timeline
keeps the promise when the page arrives. -/
theorem reflecting_readingBack : ∃ s₀ s₁ s₂ s₃ : RoomSync, s₀.step (.request .loadOlder) = some s₁ ∧
    system.Steps (fun _ a => a.isDelivery = true) s₁ s₂ ∧
    s₂.step (.pagingAnswered s₀.paging.length (readsAt 2) [note 1 1]) = some s₃ ∧
    ReflectingRoom .changes s₃ := by
  let delivered : List Action := [.commit (note 3 3), .receive (note 3 3)]
  let test (s : RoomSync × RoomSync × RoomSync × RoomSync) : Bool :=
    s.1.timeline.any (fun t₀ => decide (Reflecting s.1.log .changes t₀) &&
      (ask .loadOlder t₀).any (fun asked => decide (asked.1 = .older 2))) &&
    s.2.2.1.timeline.any (fun t₂ =>
      (s.2.2.1.answer s.1.log.length (readsAt 2) (.before 2) messagePageSize [note 1 1]).any
        (fun page => decide (Fresh s.2.2.1.log .changes (readsAt 2) (.older 2) page t₂)))
  have hrun : (episode readingBack .loadOlder delivered (readsAt 2) [note 1 1]).any test = true := by
    decide +kernel
  obtain ⟨⟨s₀, s₁, s₂, s₃⟩, hs, htest⟩ := (Option.any_eq_true _ _).mp hrun
  obtain ⟨h₀, h₁, h₂, h₃⟩ := episode_spec (by decide) hs
  obtain ⟨hbefore, hafter⟩ := (Bool.and_eq_true _ _).mp htest
  obtain ⟨t₀, ht₀, hbefore⟩ := (Option.any_eq_true _ _).mp hbefore
  obtain ⟨hr₀, hasked⟩ := (Bool.and_eq_true _ _).mp hbefore
  obtain ⟨⟨paging, t₁⟩, hask, hpaging⟩ := (Option.any_eq_true _ _).mp hasked
  obtain rfl : paging = .older 2 := of_decide_eq_true hpaging
  obtain ⟨t₂, ht₂, hafter⟩ := (Option.any_eq_true _ _).mp hafter
  obtain ⟨page, hpage, hfresh⟩ := (Option.any_eq_true _ _).mp hafter
  exact ⟨s₀, s₁, s₂, s₃, h₁, h₂, h₃, ((reflecting_answered_iff_fresh h₀ ht₀ (of_decide_eq_true hr₀)
    hask h₁ h₂ hpage ht₂ h₃).mpr (of_decide_eq_true hfresh)).1⟩

/-- **An edit is lost behind a page**: the first message is edited while the
page with its old version is on its way. The event is for a message outside
the window, so the cursor passes it; the page then brings the old version. -/
theorem edit_lost_behind_page : ∃ s₀ s₁ s₂ s₃ t₀ t₃, system.Reachable s₀ ∧
    s₀.timeline = some t₀ ∧ t₀.status = .ready ∧ Reflecting s₀.log .changes t₀ ∧
    s₀.step (.request .loadOlder) = some s₁ ∧
    system.Steps (fun _ a => a.isDelivery = true) s₁ s₂ ∧
    s₂.step (.pagingAnswered s₀.paging.length (readsAt 2) [note 1 1]) = some s₃ ∧
    s₃.timeline = some t₃ ∧ t₃.status = .ready ∧ ¬ Reflecting s₃.log .changes t₃ := by
  let delivered : List Action := [.commit (note 1 3), .receive (note 1 3)]
  let test (s : RoomSync × RoomSync × RoomSync × RoomSync) : Bool :=
    s.1.timeline.any (fun t₀ => decide (t₀.status = .ready ∧ Reflecting s.1.log .changes t₀)) &&
    s.2.2.2.timeline.any (fun t₃ =>
      decide (t₃.status = .ready ∧ ¬ Reflecting s.2.2.2.log .changes t₃))
  have hrun : (episode readingBack .loadOlder delivered (readsAt 2) [note 1 1]).any test = true := by
    decide +kernel
  obtain ⟨⟨s₀, s₁, s₂, s₃⟩, hs, htest⟩ := (Option.any_eq_true _ _).mp hrun
  obtain ⟨h₀, h₁, h₂, h₃⟩ := episode_spec (by decide) hs
  obtain ⟨hbefore, hafter⟩ := (Bool.and_eq_true _ _).mp htest
  obtain ⟨t₀, ht₀, hbefore⟩ := (Option.any_eq_true _ _).mp hbefore
  obtain ⟨t₃, ht₃, hafter⟩ := (Option.any_eq_true _ _).mp hafter
  obtain ⟨hready₀, hr₀⟩ := of_decide_eq_true hbefore
  obtain ⟨hready₃, hr₃⟩ := of_decide_eq_true hafter
  exact ⟨s₀, s₁, s₂, s₃, t₀, t₃, h₀, ht₀, hready₀, hr₀, h₁, h₂, h₃, ht₃, hready₃, hr₃⟩

/-! ## Holes -/

/-- **A window without holes.** In a run in which each page of history is
joined to the window it was asked for, and no message of the channel that the
cursor counts was posted in the page's range after the page was read, a ready
timeline holds every message of the channel that was posted by a change up to
its cursor and lies between two held ones – or beyond the held ones on a side
that is said to have no more. -/
theorem exists_of_between (h : system.ReachableBy (Admitted .creations) s) {t : TimelineState}
    (ht : s.timeline = some t) (hready : t.status = .ready) {x : Message}
    (hx : x ∈ s.log.changes) (hposted : ∀ y ∈ s.log.changes, y.id = x.id → x.changeSeq ≤ y.changeSeq)
    (hk : x.changeSeq ≤ t.changeSeq) (hch : inChannel x = true)
    (hlow : (∃ a ∈ t.messages, a.seq < x.seq) ∨ t.hasOlder = false)
    (hhigh : (∃ b ∈ t.messages, x.seq < b.seq) ∨ t.hasNewer = false) :
    ∃ m ∈ t.messages, m.id = x.id := by
  have hsound := sound_of_reachableBy h
  have htidy := (hsound.consistent t ht).tidy
  have hwatched : s.log.watched .creations x.changeSeq x.place := by
    refine ⟨RoomLog.touch_of_mem hx, fun k' hk' => ?_⟩
    obtain ⟨y, hy, hp, rfl⟩ := exists_of_held hk'
    exact hposted y hy (congrArg Place.id hp)
  have hwin : x.place ∈ t.answersFor := by
    refine ⟨hch, Window.admits_iff.mpr ⟨fun hold o ho => ?_, fun hnew n hn => ?_⟩⟩
    · obtain ⟨a, ha, hlt⟩ := hlow.resolve_right (Bool.eq_false_iff.not.mpr (not_not.mpr hold))
      exact (htidy.head_le ho ha).trans hlt.le
    · obtain ⟨b, hb, hlt⟩ := hhigh.resolve_right (Bool.eq_false_iff.not.mpr (not_not.mpr hnew))
      exact hlt.le.trans (htidy.le_getLast hn hb)
  obtain ⟨v, -, hv⟩ := hsound.reflecting t ht hready x.changeSeq x.place hk hwatched hwin
  obtain ⟨m, hm, hp, -⟩ := exists_of_held hv
  exact ⟨m, hm, congrArg Place.id hp⟩

/-- In a room of three messages, two of which were posted while it was open,
the one in the middle is there. -/
theorem exists_of_between_posted : ∃ s t, s.timeline = some t ∧
    t.messages.map Message.seq = [1, 2, 3] ∧ system.ReachableBy (Admitted .creations) s ∧
    ∃ m ∈ t.messages, m.id = 2 := by
  let actions : List Action := [.commit (note 1 1), .openRoom,
    .pageAnswered (readsAt 1) [note 1 1] (some 0) 1, .commit (note 2 2), .commit (note 3 3),
    .receive (note 3 3), .changesAnswered (readsAt 3) [note 2 2, note 3 3]]
  let test (s : RoomSync) : Bool :=
    decide (note 2 2 ∈ s.log.changes ∧ ∀ y ∈ s.log.changes, y.id = 2 → 2 ≤ y.changeSeq) &&
    s.timeline.any (fun t => decide (t.status = .ready ∧ t.messages.map Message.seq = [1, 2, 3] ∧
      2 ≤ t.changeSeq ∧ (∃ a ∈ t.messages, a.seq < 2) ∧ ∃ b ∈ t.messages, 2 < b.seq))
  have hrun : (system.run unopened actions).any test = true := by decide +kernel
  obtain ⟨s, hs, htest⟩ := (Option.any_eq_true _ _).mp hrun
  have hreach : system.ReachableBy (Admitted .creations) s :=
    reachableBy_of_run unopened_init (fun a ha _ =>
      admitted_of_not_paging ((by decide : ∀ a ∈ actions, a.isPaging = false) a ha)) hs
  obtain ⟨hlog, ht⟩ := (Bool.and_eq_true _ _).mp htest
  obtain ⟨t, ht, hprops⟩ := (Option.any_eq_true _ _).mp ht
  obtain ⟨hmem, hposted⟩ := of_decide_eq_true hlog
  obtain ⟨hready, hseqs, hcursor, hlow, hhigh⟩ := of_decide_eq_true hprops
  exact ⟨s, t, ht, hseqs, hreach, exists_of_between hreach ht hready hmem hposted hcursor rfl
    (.inl hlow) (.inl hhigh)⟩

/-- **A hole**: the page before message 5 is asked for while the window starts
there, the viewer jumps to message 6, which replaces the window, and then the
page arrives and is merged in front of it. Message 5 is in neither. -/
theorem hole_after_jump : ∃ s t, system.Reachable s ∧ s.timeline = some t ∧ t.status = .ready ∧
    ∃ x ∈ s.log.changes, (∀ y ∈ s.log.changes, y.id = x.id → x.changeSeq ≤ y.changeSeq) ∧
      x.changeSeq ≤ t.changeSeq ∧ inChannel x = true ∧
      (∃ a ∈ t.messages, inChannel a = true ∧ a.seq < x.seq) ∧
      (∃ b ∈ t.messages, inChannel b = true ∧ x.seq < b.seq) ∧ ∀ m ∈ t.messages, m.id ≠ x.id := by
  let actions : List Action := [.commit (note 1 1), .commit (note 2 2), .commit (note 3 3),
    .commit (note 4 4), .commit (note 5 5), .openRoom,
    .pageAnswered (readsAt 5) [note 1 1, note 2 2, note 3 3, note 4 4, note 5 5] (some 4) 1,
    .openSettled, .request .jumpToUnread, .pagingAnswered 0 (readsAt 5) [note 5 5],
    .request .loadOlder, .dismissUnread, .commit (note 6 6), .receive (note 6 6),
    .request .jumpToUnread, .pagingAnswered 1 (readsAt 6) [note 6 6],
    .pagingAnswered 0 (readsAt 5) [note 1 1, note 2 2, note 3 3, note 4 4]]
  let test (s : RoomSync) : Bool := s.timeline.any (fun t => decide (t.status = .ready ∧
    ∃ x ∈ s.log.changes, (∀ y ∈ s.log.changes, y.id = x.id → x.changeSeq ≤ y.changeSeq) ∧
      x.changeSeq ≤ t.changeSeq ∧ inChannel x = true ∧
      (∃ a ∈ t.messages, inChannel a = true ∧ a.seq < x.seq) ∧
      (∃ b ∈ t.messages, inChannel b = true ∧ x.seq < b.seq) ∧ ∀ m ∈ t.messages, m.id ≠ x.id))
  have hrun : (system.run unopened actions).any test = true := by decide +kernel
  obtain ⟨s, hreach, htest⟩ := exists_of_run hrun unopened_init
  obtain ⟨t, ht, hprops⟩ := (Option.any_eq_true _ _).mp htest
  obtain ⟨hready, hhole⟩ := of_decide_eq_true hprops
  exact ⟨s, t, hreach, ht, hready, hhole⟩

end RoomSync

end Hibari
