import Hibari.Reactions
import Hibari.ViewerFlags

/-!
# Switching a reaction

A client that switches a reaction shows the result at once, sends the request, and takes the
answer in like any message that arrives (`message-actions.ts`). What it shows at once has the
number of the copy it was made from, and a timeline drops what its cursor has passed. So the answer
counts only if it brings a number that the timeline has not seen yet.

Where the copy did not know that the reaction was already on, or already off, the server changes
nothing, the answer comes with the old number and is dropped, and what was shown at once stays
(`toggle_settles_iff`). And where the frame of the change comes before the answer, it takes the
place of the answer, with the viewer's own reactions as the client remembers them.
-/

namespace Hibari

open List Option ReactionRows RoomLog

/-! ## The rules of the client -/

/-- Whether a reaction is the viewer's own, as far as the client knows. -/
def knownMine (reactions : List MessageReaction) (emoji : String) : Bool :=
  ((reactions.find? (fun r => decide (r.emoji = emoji))).bind MessageReaction.me).getD false

/-- Put the viewer's own reaction on, or take it off, before the server answers
(`rules/reactions.ts`). -/
def toggleReaction (reactions : List MessageReaction) (emoji : String) (userId : Ulid)
    (add : Bool) : List MessageReaction :=
  let current := reactions.find? (fun r => decide (r.emoji = emoji))
  let mine := (current.bind MessageReaction.me).getD false
  if mine = add then reactions
  else if add then
    if current.isNone then reactions ++ [⟨emoji, 1, some true, [userId]⟩]
    else reactions.map fun r =>
      if r.emoji = emoji then
        { r with
          count := r.count + 1
          me := some true
          users := if r.users.length < maxReactionUsers then r.users ++ [userId] else r.users }
      else r
  else
    match current with
    | none => reactions
    | some current =>
      if current.count ≤ 1 then reactions.filter fun r => decide (r.emoji ≠ emoji)
      else reactions.map fun r =>
        if r.emoji = emoji then
          { r with
            count := r.count - 1
            me := some false
            users := r.users.filter fun u => decide (u ≠ userId) }
        else r

/-- Whether pressing the emoji puts the reaction on. -/
def addsReaction (reactions : List MessageReaction) (emoji : String) : Bool :=
  !reactions.any fun r => decide (r.emoji = emoji) && r.me.getD false

/-- Rewrite the copy of a message in the timeline (`patchMessageEverywhere`). -/
def patchMessage (timeline : TimelineState) (messageId : Ulid) (recipe : Message → Message) :
    TimelineState :=
  { timeline with
    messages := timeline.messages.map fun m => if m.id = messageId then recipe m else m }

/-- Show the result of pressing the emoji. -/
def showToggle (userId : Ulid) (before : Message) (emoji : String) (timeline : TimelineState) :
    TimelineState :=
  patchMessage timeline before.id fun m =>
    { m with
      reactions := toggleReaction m.reactions emoji userId (addsReaction before.reactions emoji) }

/-- Take back what was shown, because the request failed, unless something newer arrived. -/
def revertToggle (before : Message) (timeline : TimelineState) : TimelineState :=
  patchMessage timeline before.id fun m =>
    if m.changeSeq = before.changeSeq then { m with reactions := before.reactions } else m

/-- Take in frames, one after the other. A frame is the same for everybody. -/
def receiveFrames (frames : List (Viewer × Message)) (timeline : TimelineState) : TimelineState :=
  frames.foldl (fun t f => (receiveMessage f.1 f.2.shared t).1) timeline

/-! ## The answer of the server -/

/-- What the server answers to a request to put a reaction on a message or take it off
(`changeReaction`): the message as the request leaves it, with a new number only if a row was added
or deleted. -/
def answerReaction (log : RoomLog) (row : Message) (rows : ReactionRows) (userId : Ulid)
    (emoji : String) (add : Bool) : Option (RoomLog × Message) :=
  (rows.changeReaction userId emoji add).bind fun rows' =>
    let answer := { row with reactions := rows'.listMessageReactions userId }
    if rows.changesReaction userId emoji add then
      let answer := { answer with changeSeq := log.length + 1 }
      (log.commit answer).map (·, answer)
    else some (log, answer)

/-! ## The viewer's own reactions -/

section Mine

variable {reactions : List MessageReaction} {emoji x : String} {userId : Ulid}
  {r : MessageReaction} {f : MessageReaction → MessageReaction}

theorem mem_of_find?_emoji
    (h : reactions.find? (fun r => decide (r.emoji = x)) = some r) : r ∈ reactions ∧ r.emoji = x :=
  ⟨mem_of_find?_eq_some h, by simpa using find?_some h⟩

theorem knownMine_append_of_ne (hx : r.emoji ≠ x) :
    knownMine (reactions ++ [r]) x = knownMine reactions x := by
  unfold knownMine
  rw [find?_append]
  simp [hx]

/-- A rewrite that keeps the emojis, and this reaction. -/
theorem knownMine_map_of_ne (hf : ∀ r, (f r).emoji = r.emoji)
    (hx : ∀ r, r.emoji = x → f r = r) : knownMine (reactions.map f) x = knownMine reactions x := by
  unfold knownMine
  rw [find?_map]
  have hcomp : (fun r : MessageReaction => decide (r.emoji = x)) ∘ f
      = fun r => decide (r.emoji = x) := by
    funext r
    show decide ((f r).emoji = x) = _
    rw [hf]
  rw [hcomp]
  cases hfind : reactions.find? (fun r => decide (r.emoji = x)) with
  | none => rfl
  | some r => rw [map_some, hx r (mem_of_find?_emoji hfind).2]

/-- Reactions that are each marked as the viewer's or not. -/
theorem knownMine_map_me (f : String → Bool) :
    knownMine (reactions.map fun r => { r with me := some (f r.emoji) }) x
      = (decide (x ∈ reactions.map MessageReaction.emoji) && f x) := by
  unfold knownMine
  rw [find?_map]
  have hcomp : (fun r : MessageReaction => decide (r.emoji = x)) ∘
      (fun r : MessageReaction => { r with me := some (f r.emoji) })
        = fun r => decide (r.emoji = x) := rfl
  rw [hcomp]
  cases hfind : reactions.find? (fun r => decide (r.emoji = x)) with
  | none =>
    have hno : x ∉ reactions.map MessageReaction.emoji := by
      intro hmem
      obtain ⟨r, hr, hrx⟩ := List.mem_map.mp hmem
      exact absurd (decide_eq_true hrx) (find?_eq_none.mp hfind r hr)
    rw [decide_eq_false hno]
    rfl
  | some r =>
    obtain ⟨hr, hrx⟩ := mem_of_find?_emoji hfind
    have hmem : x ∈ reactions.map MessageReaction.emoji := List.mem_map.mpr ⟨r, hr, hrx⟩
    rw [decide_eq_true hmem, map_some]
    show f r.emoji = (true && f x)
    rw [hrx, Bool.true_and]

/-- What the frame of a version says after the viewer's own reactions are carried over. -/
theorem keepMyReactions_shared (previous : List MessageReaction) (m : Message) :
    keepMyReactions previous m.shared.reactions
      = m.reactions.map fun r => { r with me := some (knownMine previous r.emoji) } := by
  have hshared : m.shared.reactions = m.reactions.map fun r => { r with me := none } := rfl
  unfold keepMyReactions
  rw [hshared]
  cases hm : m.reactions with
  | nil => rfl
  | cons r =>
    rw [if_neg (by simp), List.map_map]
    refine map_congr_left fun r _ => ?_
    rfl

/-- A rewrite of the viewer's own reaction that is there. -/
theorem knownMine_map_self {b : Bool}
    (hf : ∀ r, (f r).emoji = r.emoji) (hme : ∀ r, r.emoji = emoji → (f r).me = some b)
    {current : MessageReaction}
    (hcurrent : reactions.find? (fun r => decide (r.emoji = emoji)) = some current) :
    knownMine (reactions.map f) emoji = b := by
  have hcomp : (fun r : MessageReaction => decide (r.emoji = emoji)) ∘ f
      = fun r => decide (r.emoji = emoji) := by
    funext r
    show decide ((f r).emoji = emoji) = _
    rw [hf]
  unfold knownMine
  rw [find?_map, hcomp, hcurrent, map_some, bind_some, hme current (mem_of_find?_emoji hcurrent).2]
  rfl

/-- **What is shown at once** says of the emoji that was pressed what the viewer wants, and of the
others what was known before. -/
theorem knownMine_toggleReaction (reactions : List MessageReaction) (emoji x : String)
    (userId : Ulid) :
    knownMine (toggleReaction reactions emoji userId (addsReaction reactions emoji)) x
      = if x = emoji then addsReaction reactions emoji else knownMine reactions x := by
  generalize addsReaction reactions emoji = add
  unfold toggleReaction
  simp only
  split
  · next hsame =>
    split
    · next hx => rw [hx]; exact hsame
    · rfl
  · next hother =>
    cases add with
    | true =>
      rw [if_pos rfl]
      cases hcurrent : reactions.find? (fun r => decide (r.emoji = emoji)) with
      | none =>
        rw [if_pos (by rfl)]
        split
        · next hx =>
          unfold knownMine
          rw [hx, find?_append, hcurrent]
          simp
        · next hx => exact knownMine_append_of_ne (Ne.symm hx)
      | some =>
        rw [if_neg (by simp)]
        split
        · next hx =>
          rw [hx]
          refine knownMine_map_self (fun r => ?_) (fun r hr => ?_) hcurrent
          · split <;> rfl
          · rw [if_pos hr]
        · next hx =>
          refine knownMine_map_of_ne (fun r => ?_) fun r hr => ?_
          · split <;> rfl
          · rw [if_neg (by rw [hr]; exact hx)]
    | false =>
      rw [if_neg Bool.false_ne_true]
      cases hcurrent : reactions.find? (fun r => decide (r.emoji = emoji)) with
      | none => exact absurd (by rw [hcurrent]; rfl) hother
      | some =>
        simp only
        split
        · -- nobody else has put the emoji on
          unfold knownMine
          rw [find?_filter]
          split
          · next hx =>
            rw [hx, find?_eq_none.mpr fun r _ => by simp]
            rfl
          · next hx =>
            refine congrArg (fun o : Option MessageReaction =>
              (o.bind MessageReaction.me).getD false) ?_
            refine find?_congr fun r _ => ?_
            by_cases hr : r.emoji = x
            · simp [hr, hx]
            · simp [hr]
        · split
          · next hx =>
            rw [hx]
            refine knownMine_map_self (fun r => ?_) (fun r hr => ?_) hcurrent
            · split <;> rfl
            · rw [if_pos hr]
          · next hx =>
            refine knownMine_map_of_ne (fun r => ?_) fun r hr => ?_
            · split <;> rfl
            · rw [if_neg (by rw [hr]; exact hx)]

section

variable (h : (reactions.map MessageReaction.emoji).Nodup)
include h

/-- Where each emoji is listed once, the client knows of the viewer's own reaction by what it
shows. -/
theorem addsReaction_eq_not_knownMine
    (emoji : String) : addsReaction reactions emoji = !knownMine reactions emoji := by
  unfold addsReaction knownMine
  congr 1
  cases hcurrent : reactions.find? (fun r => decide (r.emoji = emoji)) with
  | none =>
    refine List.any_eq_false.mpr fun r hr => ?_
    have hno := find?_eq_none.mp hcurrent r hr
    simp_all
  | some current =>
    obtain ⟨hmem, hemoji⟩ := mem_of_find?_emoji hcurrent
    show _ = current.me.getD false
    cases hme : current.me.getD false with
    | true =>
      refine List.any_eq_true.mpr ⟨current, hmem, ?_⟩
      rw [hme, decide_eq_true hemoji]
      rfl
    | false =>
      refine List.any_eq_false.mpr fun r hr hyes => ?_
      obtain ⟨hr', hmine⟩ := (Bool.and_eq_true _ _).mp hyes
      have hsame : r = current :=
        inj_on_of_nodup_map h hr hmem ((of_decide_eq_true hr').trans hemoji.symm)
      rw [hsame, hme] at hmine
      exact Bool.false_ne_true hmine

/-- **Pressing an emoji shows something else** than what was there, to everybody. -/
theorem toggleReaction_ne (emoji : String) (userId : Ulid) :
    (toggleReaction reactions emoji userId (addsReaction reactions emoji)).map
        (fun r => (r.emoji, r.count))
      ≠ reactions.map fun r => (r.emoji, r.count) := by
  have hadds := addsReaction_eq_not_knownMine h emoji
  generalize addsReaction reactions emoji = add at hadds
  unfold toggleReaction
  simp only
  have hother : ¬knownMine reactions emoji = add := by
    rw [hadds]
    cases knownMine reactions emoji <;> simp
  unfold knownMine at hother
  rw [if_neg hother]
  cases hcurrent : reactions.find? (fun r => decide (r.emoji = emoji)) with
  | none =>
    have hmine : knownMine reactions emoji = false := by unfold knownMine; rw [hcurrent]; rfl
    rw [hadds, hmine, if_pos (by rfl), if_pos (by rfl)]
    intro heq
    have hlen := congrArg List.length heq
    simp at hlen
  | some current =>
    obtain ⟨hmem, hemoji⟩ := mem_of_find?_emoji hcurrent
    cases add with
    | true =>
      rw [if_pos rfl, if_neg (by simp), List.map_map]
      intro heq
      have hcount := congrArg Prod.snd (map_inj_left.mp heq current hmem)
      simp [hemoji] at hcount
    | false =>
      rw [if_neg Bool.false_ne_true]
      simp only
      split
      · intro heq
        have hin : emoji ∈ (reactions.map fun r => (r.emoji, r.count)).map Prod.fst :=
          List.mem_map.mpr ⟨_, List.mem_map_of_mem hmem, hemoji⟩
        rw [← heq, List.map_map] at hin
        obtain ⟨r, hr, hrx⟩ := List.mem_map.mp hin
        exact of_decide_eq_true (mem_filter.mp hr).2 hrx
      · next hmany =>
        rw [List.map_map]
        intro heq
        have hcount := congrArg Prod.snd (map_inj_left.mp heq current hmem)
        simp [hemoji] at hcount
        omega

end

end Mine

/-! ## The copy of a message -/

/-- A timeline takes a message in: it is loading, or its cursor has not passed the message. -/
def TimelineState.Takes (timeline : TimelineState) (message : Message) : Prop :=
  timeline.status = .loading ∨ timeline.status = .ready ∧ timeline.changeSeq < message.changeSeq

instance TimelineState.decidableTakes (timeline : TimelineState) (message : Message) :
    Decidable (timeline.Takes message) :=
  inferInstanceAs (Decidable (_ ∨ _ ∧ _))

section Copy

variable {log : RoomLog} {t : TimelineState} {e m : Message} {id : Ulid}
  {recipe : Message → Message}

theorem entryOf_sortBySeq {messages : List Message} (h : OnceEach messages) (id : Ulid) :
    entryOf (sortBySeq messages) id = entryOf messages id := by
  have hsorted : OnceEach (sortBySeq messages) :=
    KeyedList.Distinct.perm (perm_insertionSort _ _).symm h
  ext e
  rw [entryOf_eq_some_iff hsorted, entryOf_eq_some_iff h, mem_sortBySeq]

theorem entryOf_mergeMessages {current : List Message} (h : Tidy current) (m : Message)
    (id : Ulid) :
    entryOf (mergeMessages current [m]) id
      = if m.id = id then some ((entryOf current id).elim m (absorb · m))
        else entryOf current id := by
  have honce : OnceEach (KeyedList.upsert Message.id absorb current m) :=
    KeyedList.Distinct.upsert (fun _ _ => absorb_id) h.distinct m
  rw [mergeMessages_of_tidy h]
  show entryOf (sortBySeq (KeyedList.upsert Message.id absorb current m)) id = _
  rw [entryOf_sortBySeq honce]
  exact KeyedList.find?_upsert (fun _ _ => absorb_id) current m id

theorem mergeIntoWindow_singleton (current : List Message) (window : Window) (m : Message) :
    mergeIntoWindow current window [m]
      = if window.admits current m.seq = true then mergeMessages current [m] else current := by
  unfold mergeIntoWindow
  by_cases hm : window.admits current m.seq = true
  · simp [hm]
  · simp [hm]

/-- **The copy after a message arrived**: another message leaves it alone, and so does a version
that is not taken in. -/
theorem entryOf_receiveMessage (viewer : Viewer) (hc : Consistent log t)
    (hm : log.touch m.changeSeq m.place)
    (he : entryOf t.messages id = some e) :
    entryOf (receiveMessage viewer m t).1.messages id
      = some (if m.id = id ∧ t.Takes m then absorb e m else e) := by
  obtain ⟨hmem, hid⟩ := (entryOf_eq_some_iff hc.tidy.distinct).mp he
  have hmerged : entryOf (mergeMessages t.messages [m]) id
      = some (if m.id = id then absorb e m else e) := by
    rw [entryOf_mergeMessages hc.tidy, he]
    split <;> rfl
  unfold receiveMessage
  by_cases hload : t.status = .loading
  · rw [if_pos hload]
    have htakes : t.Takes m := .inl hload
    simp only [htakes, and_true]
    exact hmerged
  · rw [if_neg hload]
    by_cases hdrop : t.status ≠ .ready ∨ m.changeSeq ≤ t.changeSeq
    · rw [if_pos hdrop]
      have hno : ¬t.Takes m := by
        rintro (h | ⟨hready, hlt⟩)
        · exact hload h
        · exact hdrop.elim (absurd hready) fun hle => absurd hlt hle.not_gt
      rw [if_neg fun h => hno h.2]
      exact he
    · rw [if_neg hdrop]
      obtain ⟨hready, hlt⟩ := not_or.mp hdrop
      have htakes : t.Takes m := .inr ⟨not_not.mp hready, not_le.mp hlt⟩
      simp only [htakes, and_true, afterNewMessages_messages]
      rw [mergeIntoWindow_singleton]
      split
      · exact hmerged
      · next hout =>
        have hother : m.id ≠ id := by
          intro hsame
          have hplace : m.place = e.place :=
            log.place_eq_of_id hm (genuine_iff.mp hc.genuine e hmem) (hsame.trans hid.symm)
          have hseq : m.seq = e.seq := congrArg Place.seq hplace
          exact hout (hseq ▸ hc.tidy.admits t.window hmem)
        rw [if_neg hother]
        exact he

theorem entryOf_patchMessage (hid : ∀ m, (recipe m).id = m.id) (id : Ulid) :
    entryOf (patchMessage t id recipe).messages id = (entryOf t.messages id).map recipe := by
  show (t.messages.map _).find? _ = _
  rw [find?_map]
  have hcomp : (fun m : Message => decide (m.id = id)) ∘
      (fun m => if m.id = id then recipe m else m) = fun m => decide (m.id = id) := by
    funext m
    show decide ((if m.id = id then recipe m else m).id = id) = _
    split
    · rw [hid]
    · rfl
  rw [hcomp]
  show (entryOf t.messages id).map _ = _
  cases he : entryOf t.messages id with
  | none => rfl
  | some e =>
    have hid : e.id = id := by simpa using find?_some he
    rw [map_some, map_some, if_pos hid]

theorem Consistent.patchMessage (hc : Consistent log t) (id : Ulid)
    (hstamp : ∀ m, (recipe m).stamp = m.stamp) : Consistent log (patchMessage t id recipe) := by
  have hstamps : (Hibari.patchMessage t id recipe).messages.map Message.stamp
      = t.messages.map Message.stamp := by
    show (t.messages.map _).map _ = _
    rw [List.map_map]
    refine map_congr_left fun m _ => ?_
    show (if m.id = id then recipe m else m).stamp = m.stamp
    split
    · exact hstamp m
    · rfl
  refine ⟨hc.tidy.congr hstamps, fun p v hv => hc.genuine p v ?_, hc.changeSeq_le⟩
  unfold held at hv ⊢
  rwa [hstamps] at hv

/-- What taking in a message does to a timeline that is ready. -/
theorem receiveMessage_taken (viewer : Viewer) (hready : t.status = .ready)
    (hlt : t.changeSeq < m.changeSeq) :
    (receiveMessage viewer m t).1.messages = mergeIntoWindow t.messages t.window [m] ∧
      (receiveMessage viewer m t).1.changeSeq
        = advanceCursor (if m.changeSeq = t.changeSeq + 1 then m.changeSeq else t.changeSeq)
            (mergeIntoWindow t.messages t.window [m]) := by
  have hnot : ¬(t.status ≠ .ready ∨ m.changeSeq ≤ t.changeSeq) := by
    rintro (h | h)
    · exact h hready
    · exact absurd hlt h.not_gt
  unfold receiveMessage
  rw [if_neg (by rw [hready]; exact LoadStatus.noConfusion), if_neg hnot]
  exact ⟨afterNewMessages_messages, afterNewMessages_changeSeq⟩

theorem receiveMessage_dropped (viewer : Viewer) (hready : t.status = .ready)
    (hle : m.changeSeq ≤ t.changeSeq) :
    (receiveMessage viewer m t).1 = t := by
  unfold receiveMessage
  rw [if_neg (by rw [hready]; exact LoadStatus.noConfusion), if_pos (.inr hle)]

/-- **The cursor does not pass a change without its message**: it comes to a number only by a
message that has it. -/
theorem cursor_lt_or (viewer : Viewer) (hc : Consistent log t) {answer : Message}
    (ha : answer ∈ log.changes)
    (hm : log.touch m.changeSeq m.place) (he : entryOf t.messages answer.id = some e)
    (hready : t.status = .ready) (hlt : t.changeSeq < answer.changeSeq) {e' : Message}
    (he' : entryOf (receiveMessage viewer m t).1.messages answer.id = some e') :
    (receiveMessage viewer m t).1.changeSeq < answer.changeSeq ∨
      answer.changeSeq ≤ e'.changeSeq := by
  have hc' : Consistent log (receiveMessage viewer m t).1 := hc.receiveMessage hm
  have hentry := entryOf_receiveMessage viewer hc hm he
  by_cases htaken : t.changeSeq < m.changeSeq
  · obtain ⟨hmessages, hcursor⟩ := receiveMessage_taken viewer hready htaken
    refine or_iff_not_imp_left.mpr fun hpassed => ?_
    rw [hcursor] at hpassed
    have htouch : log.touch answer.changeSeq answer.place := touch_of_mem ha
    by_cases hnext : answer.changeSeq
        ≤ if m.changeSeq = t.changeSeq + 1 then m.changeSeq else t.changeSeq
    · -- the message that arrives is the one with the number
      have hnumber : m.changeSeq = answer.changeSeq := by
        split at hnext
        · omega
        · omega
      have hid : m.id = answer.id :=
        congrArg Place.id (log.place_eq_of_touch (hnumber ▸ hm) htouch)
      rw [he', if_pos ⟨hid, .inr ⟨hready, htaken⟩⟩] at hentry
      rw [some.inj hentry, ← hnumber]
      exact le_absorb_message e m
    · -- a message that is held has it
      obtain ⟨x, hx, hxk⟩ := exists_of_le_advanceCursor (not_le.mp hnext) (not_lt.mp hpassed)
      rw [← hmessages] at hx
      have hid : x.id = answer.id := congrArg Place.id
        (log.place_eq_of_touch (hxk ▸ genuine_iff.mp hc'.genuine x hx) htouch)
      have hx' := (entryOf_eq_some_iff hc'.tidy.distinct).mpr ⟨hx, hid⟩
      rw [he'] at hx'
      rw [some.inj hx', hxk]
  · rw [receiveMessage_dropped viewer hready (not_lt.mp htaken)]
    exact .inl hlt

theorem Consistent.of_prefix (hc : Consistent log t) {log' : RoomLog}
    (h : log.changes <+: log'.changes) : Consistent log' t :=
  ⟨hc.tidy, fun p v hv => map_subset _ h.subset (hc.genuine p v hv),
    hc.changeSeq_le.trans h.length_le⟩

/-! ## Frames -/

theorem touch_shared (hm : m ∈ log.changes) : log.touch m.shared.changeSeq m.shared.place :=
  show log.touch m.changeSeq m.place from touch_of_mem hm

variable {frames : List (Viewer × Message)}

theorem Consistent.receiveFrames (hc : Consistent log t) (hf : ∀ f ∈ frames, f.2 ∈ log.changes) :
    Consistent log (receiveFrames frames t) := by
  induction frames generalizing t with
  | nil => exact hc
  | cons f _ ih =>
    exact ih (hc.receiveMessage (touch_shared (hf f (.head _)))) fun g hg => hf g (.tail _ hg)

theorem status_receiveFrames : (receiveFrames frames t).status = t.status := by
  induction frames generalizing t with
  | nil => rfl
  | cons _ _ ih => exact ih.trans receiveMessage_status

theorem receiveFrames_append (frames frames' : List (Viewer × Message)) (t : TimelineState) :
    receiveFrames (frames ++ frames') t = receiveFrames frames' (receiveFrames frames t) :=
  foldl_append

/-- **Older versions do not touch a copy.** -/
theorem entryOf_receiveFrames_of_older (hc : Consistent log t)
    (hf : ∀ f ∈ frames, f.2 ∈ log.changes) (he : entryOf t.messages id = some e)
    (holder : ∀ f ∈ frames, f.2.id = id → f.2.changeSeq < e.changeSeq) :
    entryOf (receiveFrames frames t).messages id = some e := by
  induction frames generalizing t with
  | nil => exact he
  | cons f _ ih =>
    have hm := touch_shared (hf f (.head _))
    refine ih (hc.receiveMessage hm) (fun g hg => hf g (.tail _ hg)) ?_
      fun g hg => holder g (.tail _ hg)
    rw [entryOf_receiveMessage f.1 hc hm he]
    split
    · next htaken =>
      have hlt : e.changeSeq > f.2.shared.changeSeq := holder f (.head _) htaken.1
      unfold absorb
      rw [if_pos hlt]
    · rfl

/-- The change at a place of the log has the number of the place. -/
theorem RoomLog.changeSeq_of_getElem? {k : ℕ} (h : log.changes[k]? = some m) :
    m.changeSeq = k + 1 := by
  have hmem : m ∈ log.changes.take (k + 1) := by
    rw [take_add_one, h]
    exact mem_append_right _ (mem_singleton_self m)
  have hnot : m ∉ log.changes.take k := by
    intro hbefore
    obtain ⟨i, hi, hget⟩ := mem_take_iff_getElem.mp hbefore
    obtain ⟨hk, hkget⟩ := List.getElem?_eq_some_iff.mp h
    have hik := log.wellFormed.nodup.getElem_inj_iff.mp (hget.trans hkget.symm)
    omega
  rw [log.wellFormed.mem_take_iff] at hmem hnot
  have hbound : ¬m.changeSeq ≤ k := fun hle => hnot ⟨hmem.1, hle⟩
  omega

/-- **The frames of the first changes** bring the cursor that far. -/
theorem le_changeSeq_receiveFrames (hready : t.status = .ready) (viewer : Viewer) {k : ℕ}
    (hk : k ≤ log.length) :
    k ≤ (receiveFrames ((log.changes.take k).map (viewer, ·)) t).changeSeq := by
  induction k with
  | zero => exact Nat.zero_le _
  | succ k ih =>
    obtain ⟨m, hm⟩ : ∃ m, log.changes[k]? = some m :=
      ⟨_, getElem?_eq_getElem hk⟩
    have hnumber := changeSeq_of_getElem? hm
    have hready' : (receiveFrames ((log.changes.take k).map (viewer, ·)) t).status = .ready :=
      status_receiveFrames.trans hready
    have hle := ih (Nat.le_of_succ_le hk)
    rw [take_add_one, hm, map_append, receiveFrames_append]
    show k + 1 ≤ (receiveMessage viewer m.shared _).1.changeSeq
    by_cases htaken : (receiveFrames ((log.changes.take k).map (viewer, ·)) t).changeSeq
        < m.shared.changeSeq
    · rw [(receiveMessage_taken viewer hready' htaken).2]
      have hnext : m.shared.changeSeq
          = (receiveFrames ((log.changes.take k).map (viewer, ·)) t).changeSeq + 1 := by
        have hshared : m.shared.changeSeq = k + 1 := hnumber
        omega
      rw [if_pos hnext]
      exact hnumber.ge.trans (le_advanceCursor _ _)
    · rw [receiveMessage_dropped viewer hready' (not_lt.mp htaken)]
      exact hnumber.ge.trans (not_lt.mp htaken)

/-- **The frames of other changes bring the cursor past a copy** that is ahead of it, and leave the
copy as it is. -/
theorem exists_passing (hc : Consistent log t) (hready : t.status = .ready)
    (he : entryOf t.messages id = some e) {x : Message} (hx : x ∈ log.changes) (hxid : x.id ≠ id)
    (hlt : e.changeSeq < x.changeSeq) :
    ∃ frames : List (Viewer × Message), (∀ f ∈ frames, f.2 ∈ log.changes) ∧
      entryOf (receiveFrames frames t).messages id = some e ∧
      e.changeSeq ≤ (receiveFrames frames t).changeSeq := by
  let viewer : Viewer := ⟨0, none, false⟩
  obtain ⟨hmem, hid⟩ := (entryOf_eq_some_iff hc.tidy.distinct).mp he
  obtain ⟨hpos, hbound⟩ := touch_bounds (genuine_iff.mp hc.genuine e hmem)
  let first : List (Viewer × Message) := (log.changes.take (e.changeSeq - 1)).map (viewer, ·)
  have hfirst : ∀ f ∈ first, f.2 ∈ log.changes ∧ f.2.changeSeq < e.changeSeq := by
    intro f hf
    obtain ⟨y, hy, rfl⟩ := List.mem_map.mp hf
    obtain ⟨hylog, hle⟩ := (log.wellFormed.mem_take_iff _).mp hy
    exact ⟨hylog, by show y.changeSeq < _; omega⟩
  have hc₁ := hc.receiveFrames fun f hf => (hfirst f hf).1
  have he₁ := entryOf_receiveFrames_of_older hc (fun f hf => (hfirst f hf).1) he
    fun f hf _ => (hfirst f hf).2
  have hready₁ : (receiveFrames first t).status = .ready := status_receiveFrames.trans hready
  have hle₁ : e.changeSeq - 1 ≤ (receiveFrames first t).changeSeq :=
    le_changeSeq_receiveFrames hready viewer (by omega)
  have hentry := entryOf_receiveMessage viewer hc₁ (touch_shared hx) he₁
  rw [if_neg fun h => hxid h.1] at hentry
  refine ⟨first ++ [(viewer, x)], fun f hf => ?_, ?_, ?_⟩
  · rcases mem_append.mp hf with hf | hf
    · exact (hfirst f hf).1
    · rw [mem_singleton.mp hf]
      exact hx
  · rw [receiveFrames_append]
    exact hentry
  · rw [receiveFrames_append]
    show e.changeSeq ≤ (receiveMessage viewer x.shared (receiveFrames first t)).1.changeSeq
    by_cases htaken : (receiveFrames first t).changeSeq < x.shared.changeSeq
    · -- the copy would be the next change, so the cursor cannot stop before it
      obtain ⟨hmessages, hcursor⟩ := receiveMessage_taken viewer hready₁ htaken
      have hheld := ((entryOf_eq_some_iff
        (hc₁.receiveMessage (touch_shared hx)).tidy.distinct).mp hentry).1
      rw [hmessages] at hheld
      have hstop := advanceCursor_succ_notMem
        (if x.shared.changeSeq = (receiveFrames first t).changeSeq + 1 then x.shared.changeSeq
          else (receiveFrames first t).changeSeq) _ e hheld
      rw [← hcursor] at hstop
      have hle : e.changeSeq - 1
          ≤ (receiveMessage viewer x.shared (receiveFrames first t)).1.changeSeq :=
        hle₁.trans le_receiveMessage_changeSeq
      omega
    · rw [receiveMessage_dropped viewer hready₁ (not_lt.mp htaken)]
      exact hlt.le.trans (not_lt.mp htaken)

end Copy

/-! ## Pressing an emoji -/

/-- **A viewer presses an emoji** on a message of a timeline: the room when the server handles the
request, with the newest version of the message and its reactions; and the timeline when the emoji
is pressed, with the copy that it holds. The copy is a version of the message, except for what it
says about the viewer. -/
structure Pressing where
  log : RoomLog
  row : Message
  rows : ReactionRows
  userId : Ulid
  emoji : String
  timeline : TimelineState
  before : Message
  row_mem : row ∈ log.changes
  newest : ∀ x ∈ log.changes, x.id = row.id → x.changeSeq ≤ row.changeSeq
  reactions : row.reactions = rows.listMessageReactions userId
  consistent : Consistent log timeline
  opened : timeline.status = .loading ∨ timeline.status = .ready
  held : entryOf timeline.messages row.id = some before
  version : ∃ x ∈ log.changes, before.shared = x.shared

namespace Pressing

variable (P : Pressing)

/-- Whether the viewer asks for the reaction to be put on. -/
def add : Bool := addsReaction P.before.reactions P.emoji

/-- The timeline after the emoji was pressed. -/
def shown : TimelineState := showToggle P.userId P.before P.emoji P.timeline

/-- The room and the message after the request. -/
def answer : Option (RoomLog × Message) :=
  answerReaction P.log P.row P.rows P.userId P.emoji P.add

/-- **The timeline settles on the answer**: whichever frames arrive before it and after it, of
changes of the room made before and since, if none of them is newer for this message. -/
def Settles : Prop :=
  ∀ log₁ answer, P.answer = some (log₁, answer) → ∀ log₂ : RoomLog, log₁.changes <+: log₂.changes →
      (∀ x ∈ log₂.changes, x.id = P.row.id → x.changeSeq ≤ answer.changeSeq) →
        ∀ (early late : List (Viewer × Message)) (viewer : Viewer),
          (∀ f ∈ early ++ late, f.2 ∈ log₂.changes) → (entryOf (receiveFrames late
              (receiveMessage viewer answer (receiveFrames early P.shown)).1).messages
                P.row.id).map Message.reactions = some answer.reactions

/-- **A failed request leaves everything as it was.** -/
def Reverts : Prop := revertToggle P.before P.shown = P.timeline

/-- The versions of the message that may still arrive have the emoji. -/
def Lasts (emoji : String) : Prop :=
  ∀ v ∈ P.log.changes, v.id = P.row.id → P.timeline.changeSeq < v.changeSeq →
    P.before.changeSeq ≤ v.changeSeq → emoji ∈ v.reactions.map MessageReaction.emoji

/-- **The client is in step with the server**: the answer brings a number that is new to it,
because the request changes something or because the server is ahead; what it knows of the viewer's
other reactions is right; and the viewer's reactions are in every version of the message that may
arrive before the answer. -/
def InStep : Prop :=
  P.timeline.status = .loading ∨ (P.rows.changesReaction P.userId P.emoji P.add = true ∨
      P.before.changeSeq < P.row.changeSeq ∧ P.timeline.changeSeq < P.row.changeSeq) ∧
    (∀ x ∈ P.rows.emojis, x ≠ P.emoji →
      (knownMine P.before.reactions x = true ↔ (P.userId, x) ∈ P.rows) ∧
        ((P.userId, x) ∈ P.rows → P.Lasts x)) ∧
    (P.add = true → P.Lasts P.emoji)

/-- **The promise of the cursor**, for this message: its copy is not older than a change that the
cursor has passed. -/
def Kept : Prop :=
  ∀ x ∈ P.log.changes, x.id = P.row.id → x.changeSeq ≤ P.timeline.changeSeq →
    x.changeSeq ≤ P.before.changeSeq

/-- The copy that is shown at once. -/
def shownCopy : Message :=
  { P.before with reactions := toggleReaction P.before.reactions P.emoji P.userId P.add }

variable {P}

theorem before_mem (P : Pressing) : P.before ∈ P.timeline.messages ∧ P.before.id = P.row.id :=
  (entryOf_eq_some_iff P.consistent.tidy.distinct).mp P.held

theorem entryOf_shown (P : Pressing) : entryOf P.shown.messages P.row.id = some P.shownCopy := by
  unfold shown showToggle
  rw [← P.before_mem.2]
  refine Eq.trans (entryOf_patchMessage ?_ _) ?_
  · intro m
    rfl
  · rw [P.before_mem.2, P.held]
    rfl

theorem consistent_shown (P : Pressing) : Consistent P.log P.shown :=
  P.consistent.patchMessage _ fun _ => rfl

theorem before_le_row (P : Pressing) : P.before.changeSeq ≤ P.row.changeSeq := by
  obtain ⟨x, hx, hshared⟩ := P.version
  have hid : x.id = P.row.id := (id_of_shared hshared).symm.trans P.before_mem.2
  have hseq : P.before.changeSeq = x.changeSeq :=
    show P.before.shared.changeSeq = x.shared.changeSeq from congrArg Message.changeSeq hshared
  exact hseq ▸ P.newest x hx hid

/-- Taking back what was shown restores the timeline. -/
theorem reverts (P : Pressing) : P.Reverts := by
  have hmessages : P.shown.messages.map (fun m => if m.id = P.before.id then
      (if m.changeSeq = P.before.changeSeq then { m with reactions := P.before.reactions } else m)
      else m) = P.timeline.messages := by
    unfold shown showToggle patchMessage
    rw [List.map_map]
    refine (map_congr_left fun m hm => ?_).trans (List.map_id _)
    show (if (if m.id = P.before.id then _ else m).id = P.before.id then _ else _) = m
    by_cases hid : m.id = P.before.id
    · obtain rfl : m = P.before :=
        P.consistent.tidy.distinct.eq_of_mem hm P.before_mem.1 hid
      simp
    · simp [hid]
  unfold Reverts revertToggle patchMessage
  rw [hmessages]
  rfl

/-! ### The answer -/

/-- What the answer to a request is: the message with the reactions the request left, and with a
new number where the request changed something. -/
structure Answered (P : Pressing) (log₁ : RoomLog) (answer : Message) (rows' : ReactionRows) :
    Prop where
  rows : P.rows.changeReaction P.userId P.emoji P.add = some rows'
  reactions : answer.reactions = rows'.listMessageReactions P.userId
  id : answer.id = P.row.id
  mem : answer ∈ log₁.changes
  goesOn : P.log.changes <+: log₁.changes
  changed : P.rows.changesReaction P.userId P.emoji P.add = true →
    answer.changeSeq = P.log.length + 1
  same : P.rows.changesReaction P.userId P.emoji P.add = false → answer = P.row
  last : ∀ x ∈ log₁.changes, x.id = P.row.id → x.changeSeq ≤ answer.changeSeq

variable {log₁ log₂ : RoomLog} {answer m e : Message} {rows' : ReactionRows} {t : TimelineState}

theorem exists_answered (h : P.answer = some (log₁, answer)) :
    ∃ rows', Answered P log₁ answer rows' := by
  obtain ⟨rows', hrows, hanswer⟩ := bind_eq_some_iff.mp h
  refine ⟨rows', ?_⟩
  simp only at hanswer
  split at hanswer
  · next hchanged =>
    obtain ⟨log', hlog, hpair⟩ := map_eq_some_iff.mp hanswer
    cases hpair
    unfold RoomLog.commit at hlog
    split at hlog
    · cases hlog
      refine ⟨hrows, rfl, rfl, mem_append_right _ (.head _), prefix_append _ _, fun _ => rfl,
        fun hno => absurd (hchanged.symm.trans hno) Bool.true_eq_false.mp, fun x hx _ => ?_⟩
      rcases mem_append.mp hx with hx | hx
      · exact (P.log.wellFormed.changeSeq_bounds hx).2.trans (Nat.le_succ _)
      · rw [mem_singleton.mp hx]
    · cases hlog
  · next hsame =>
    cases hanswer
    have hrow : { P.row with reactions := rows'.listMessageReactions P.userId } = P.row := by
      rw [eq_of_changeReaction hrows (Bool.eq_false_iff.mpr hsame), ← P.reactions]
    exact ⟨hrows, rfl, rfl, by rw [hrow]; exact P.row_mem, prefix_rfl,
      fun hchanged => absurd hchanged hsame, fun _ => hrow, P.newest⟩

namespace Answered

variable (h : Answered P log₁ answer rows') {r : MessageReaction}

include h

theorem me_eq (hr : r ∈ answer.reactions) : r.me = some (decide ((P.userId, r.emoji) ∈ rows')) :=
  me_of_mem_listMessageReactions (h.reactions ▸ hr)

theorem me_eq_knownMine (hr : r ∈ answer.reactions) :
    r.me = some (knownMine answer.reactions r.emoji) := by
  have hmap : answer.reactions.map (fun r =>
      { r with me := some (decide ((P.userId, r.emoji) ∈ rows')) }) = answer.reactions :=
    (map_congr_left fun r hr => by rw [← h.me_eq hr]; rfl).trans (List.map_id _)
  have hmine : knownMine answer.reactions r.emoji = decide ((P.userId, r.emoji) ∈ rows') := by
    rw [← hmap, knownMine_map_me fun emoji => decide ((P.userId, emoji) ∈ rows'),
      decide_eq_true (List.mem_map_of_mem hr), Bool.true_and]
  rw [hmine]
  exact h.me_eq hr

/-- A version before the answer was there when the request was handled. -/
theorem mem_of_lt (hgoes : log₁.changes <+: log₂.changes) (hm : m ∈ log₂.changes)
    (hlt : m.changeSeq < answer.changeSeq) : m ∈ P.log.changes := by
  have hle : m.changeSeq ≤ P.log.length := by
    cases hchanges : P.rows.changesReaction P.userId P.emoji P.add with
    | true => rw [h.changed hchanges] at hlt; exact Nat.le_of_lt_succ hlt
    | false =>
      rw [h.same hchanges] at hlt
      exact hlt.le.trans (P.log.wellFormed.changeSeq_bounds P.row_mem).2
  have htake := (log₂.wellFormed.mem_take_iff P.log.length).mpr ⟨hm, hle⟩
  have hprefix : P.log.changes = log₂.changes.take P.log.length :=
    prefix_iff_eq_take.mp (h.goesOn.trans hgoes)
  exact hprefix ▸ htake

end Answered

/-! ### While frames arrive -/

/-- Where no newer version of the message is around. -/
def Last (P : Pressing) (log₂ : RoomLog) (answer : Message) : Prop :=
  ∀ x ∈ log₂.changes, x.id = P.row.id → x.changeSeq ≤ answer.changeSeq

/-- **What the copy is on the way to**: once it has the number of the answer it is the answer, and
until then it says of the viewer's reactions in the answer what the answer says. -/
structure Nears (P : Pressing) (log₂ : RoomLog) (answer : Message) (t : TimelineState)
    (e : Message) : Prop where
  consistent : Consistent log₂ t
  ready : t.status = .ready
  entry : entryOf t.messages P.row.id = some e
  started : P.timeline.changeSeq ≤ t.changeSeq
  older : P.before.changeSeq ≤ e.changeSeq
  newer : e.changeSeq ≤ answer.changeSeq
  settled : e.changeSeq = answer.changeSeq → e.reactions = answer.reactions
  mine : ∀ r ∈ answer.reactions, r.me = some (knownMine e.reactions r.emoji)
  ahead : t.changeSeq < answer.changeSeq ∨ e.changeSeq = answer.changeSeq

/-- The copy is the answer, as to the reactions. -/
structure Done (P : Pressing) (log₂ : RoomLog) (answer : Message) (t : TimelineState)
    (e : Message) : Prop where
  consistent : Consistent log₂ t
  entry : entryOf t.messages P.row.id = some e
  number : e.changeSeq = answer.changeSeq
  reactions : e.reactions = answer.reactions

theorem keepMyReactions_answer {previous : List MessageReaction}
    (h : ∀ r ∈ answer.reactions, r.me = some (knownMine previous r.emoji)) :
    keepMyReactions previous answer.shared.reactions = answer.reactions := by
  rw [keepMyReactions_shared]
  exact (map_congr_left fun r hr => by rw [← h r hr]; rfl).trans (List.map_id _)

theorem Answered.reactions_absorb (h : Answered P log₁ answer rows')
    (hle : e.changeSeq ≤ answer.changeSeq) : (absorb e answer).reactions = answer.reactions := by
  unfold absorb
  rw [if_neg hle.not_gt]
  refine (keepMyReactions_eq_iff _ _).mpr fun r hr => ?_
  rw [h.me_eq hr]
  rfl

theorem changeSeq_absorb (hle : e.changeSeq ≤ m.changeSeq) :
    (absorb e m).changeSeq = m.changeSeq := by
  unfold absorb
  rw [if_neg hle.not_gt]

theorem absorb_of_lt (hlt : m.changeSeq < e.changeSeq) : absorb e m = e := by
  unfold absorb
  rw [if_pos hlt]

theorem reactions_absorb_shared (hle : e.changeSeq ≤ m.changeSeq) :
    (absorb e m.shared).reactions = keepMyReactions e.reactions m.shared.reactions := by
  unfold absorb
  rw [if_neg (show ¬e.changeSeq > m.shared.changeSeq from hle.not_gt)]

/-- **A frame brings the copy nearer to the answer.** -/
theorem Nears.receive (h : Answered P log₁ answer rows') (hgoes : log₁.changes <+: log₂.changes)
    (hlast : Last P log₂ answer)
    (hlasts : ∀ r ∈ answer.reactions, r.me = some true → P.Lasts r.emoji)
    (hn : Nears P log₂ answer t e) (hm : m ∈ log₂.changes) (viewer : Viewer) :
    ∃ e', Nears P log₂ answer (receiveMessage viewer m.shared t).1 e' := by
  have ha : answer ∈ log₂.changes := hgoes.subset h.mem
  have htouch : log₂.touch m.shared.changeSeq m.shared.place := touch_shared hm
  have hentry := entryOf_receiveMessage viewer hn.consistent htouch hn.entry
  have hcursor : ∀ e', entryOf (receiveMessage viewer m.shared t).1.messages P.row.id = some e' →
      e'.changeSeq ≤ answer.changeSeq → e.changeSeq ≤ e'.changeSeq →
        (receiveMessage viewer m.shared t).1.changeSeq < answer.changeSeq ∨
          e'.changeSeq = answer.changeSeq := by
    intro e' he' hle hmono
    refine hn.ahead.elim (fun hlt => ?_) fun heq => .inr (hle.antisymm (heq ▸ hmono))
    have hentry' : entryOf t.messages answer.id = some e := h.id ▸ hn.entry
    exact (cursor_lt_or viewer hn.consistent ha htouch hentry' hn.ready hlt (h.id ▸ he')).imp_right
      hle.antisymm
  have hstart : P.timeline.changeSeq ≤ (receiveMessage viewer m.shared t).1.changeSeq :=
    hn.started.trans le_receiveMessage_changeSeq
  have hready : (receiveMessage viewer m.shared t).1.status = .ready :=
    receiveMessage_status.trans hn.ready
  have hc : Consistent log₂ (receiveMessage viewer m.shared t).1 :=
    hn.consistent.receiveMessage htouch
  by_cases htaken : m.shared.id = P.row.id ∧ t.Takes m.shared
  · rw [if_pos htaken] at hentry
    have hid : m.id = P.row.id := htaken.1
    have hle : m.changeSeq ≤ answer.changeSeq := hlast m hm hid
    have hnew : t.changeSeq < m.changeSeq :=
      htaken.2.elim (fun hload => LoadStatus.noConfusion (hn.ready.symm.trans hload)) (·.2)
    by_cases holder : m.changeSeq < e.changeSeq
    · rw [absorb_of_lt (m := m.shared) holder] at hentry
      exact ⟨e, hc, hready, hentry, hstart, hn.older, hn.newer, hn.settled, hn.mine,
        hcursor e hentry hn.newer le_rfl⟩
    · have hnumber : (absorb e m.shared).changeSeq = m.changeSeq :=
        changeSeq_absorb (m := m.shared) (not_lt.mp holder)
      have hreactions := reactions_absorb_shared (not_lt.mp holder)
      refine ⟨absorb e m.shared, hc, hready, hentry, hstart, ?_, ?_, fun heq => ?_,
        fun r hr => ?_, hcursor _ hentry ?_ ?_⟩
      · exact hnumber ▸ hn.older.trans (not_lt.mp holder)
      · exact hnumber ▸ hle
      · -- the frame is the one of the answer
        obtain rfl := log₂.wellFormed.eq_of_changeSeq hm ha (hnumber ▸ heq)
        exact hreactions.trans (keepMyReactions_answer hn.mine)
      · rw [hreactions, keepMyReactions_shared, knownMine_map_me, hn.mine r hr]
        cases hmine : knownMine e.reactions r.emoji with
        | false => rw [Bool.and_false]
        | true =>
          have hme : r.me = some true := by rw [hn.mine r hr, hmine]
          have hmem : r.emoji ∈ m.reactions.map MessageReaction.emoji := by
            rcases hle.lt_or_eq with hlt | heq
            · exact hlasts r hr hme m (h.mem_of_lt hgoes hm hlt) hid (hn.started.trans_lt hnew)
                (hn.older.trans (not_lt.mp holder))
            · obtain rfl := log₂.wellFormed.eq_of_changeSeq hm ha heq
              exact List.mem_map_of_mem hr
          rw [decide_eq_true hmem]
          rfl
      · exact hnumber ▸ hle
      · exact hnumber ▸ not_lt.mp holder
  · rw [if_neg htaken] at hentry
    exact ⟨e, hc, hready, hentry, hstart, hn.older, hn.newer, hn.settled, hn.mine,
      hcursor e hentry hn.newer le_rfl⟩

/-- A copy that is the answer stays so. -/
theorem Done.receive (h : Answered P log₁ answer rows') (hgoes : log₁.changes <+: log₂.changes)
    (hlast : Last P log₂ answer) (hd : Done P log₂ answer t e) (hm : m ∈ log₂.changes)
    (viewer : Viewer) : ∃ e', Done P log₂ answer (receiveMessage viewer m.shared t).1 e' := by
  have htouch : log₂.touch m.shared.changeSeq m.shared.place := touch_shared hm
  have hentry := entryOf_receiveMessage viewer hd.consistent htouch hd.entry
  have hc : Consistent log₂ (receiveMessage viewer m.shared t).1 :=
    hd.consistent.receiveMessage htouch
  by_cases htaken : m.shared.id = P.row.id ∧ t.Takes m.shared
  · rw [if_pos htaken] at hentry
    have hle : m.changeSeq ≤ answer.changeSeq := hlast m hm htaken.1
    rcases (hd.number ▸ hle : m.changeSeq ≤ e.changeSeq).lt_or_eq with hlt | heq
    · rw [absorb_of_lt (m := m.shared) hlt] at hentry
      exact ⟨e, hc, hentry, hd.number, hd.reactions⟩
    · obtain rfl := log₂.wellFormed.eq_of_changeSeq hm (hgoes.subset h.mem) (heq.trans hd.number)
      refine ⟨absorb e m.shared, hc, hentry, changeSeq_absorb (m := m.shared) heq.ge, ?_⟩
      rw [reactions_absorb_shared heq.ge, hd.reactions]
      exact keepMyReactions_answer fun r hr => h.me_eq_knownMine hr
  · rw [if_neg htaken] at hentry
    exact ⟨e, hc, hentry, hd.number, hd.reactions⟩

variable {frames : List (Viewer × Message)}

theorem Nears.receiveFrames (h : Answered P log₁ answer rows')
    (hgoes : log₁.changes <+: log₂.changes) (hlast : Last P log₂ answer)
    (hlasts : ∀ r ∈ answer.reactions, r.me = some true → P.Lasts r.emoji)
    (hn : Nears P log₂ answer t e) (hf : ∀ f ∈ frames, f.2 ∈ log₂.changes) :
    ∃ e', Nears P log₂ answer (receiveFrames frames t) e' := by
  induction frames generalizing t e with
  | nil => exact ⟨e, hn⟩
  | cons f _ ih =>
    obtain ⟨e', hn'⟩ := hn.receive h hgoes hlast hlasts (hf f (.head _)) f.1
    exact ih hn' fun g hg => hf g (.tail _ hg)

theorem Done.receiveFrames (h : Answered P log₁ answer rows')
    (hgoes : log₁.changes <+: log₂.changes) (hlast : Last P log₂ answer)
    (hd : Done P log₂ answer t e) (hf : ∀ f ∈ frames, f.2 ∈ log₂.changes) :
    ∃ e', Done P log₂ answer (receiveFrames frames t) e' := by
  induction frames generalizing t e with
  | nil => exact ⟨e, hd⟩
  | cons f _ ih =>
    obtain ⟨e', hd'⟩ := hd.receive h hgoes hlast (hf f (.head _)) f.1
    exact ih hd' fun g hg => hf g (.tail _ hg)

/-- The copy does not get newer than the answer. -/
theorem exists_copy (hlast : Last P log₂ answer) (hc : Consistent log₂ t)
    (he : entryOf t.messages P.row.id = some e) (hle : e.changeSeq ≤ answer.changeSeq)
    (hf : ∀ f ∈ frames, f.2 ∈ log₂.changes) :
    ∃ e', entryOf (receiveFrames frames t).messages P.row.id = some e' ∧
      e'.changeSeq ≤ answer.changeSeq := by
  induction frames generalizing t e with
  | nil => exact ⟨e, he, hle⟩
  | cons f _ ih =>
    have hm := hf f (.head _)
    have hentry := entryOf_receiveMessage f.1 hc (touch_shared hm) he
    refine ih (hc.receiveMessage (touch_shared hm)) hentry ?_ fun g hg => hf g (.tail _ hg)
    split
    · next htaken =>
      rcases absorb_stamp e f.2.shared with hstamp | hstamp
      · exact (congrArg Stamp.changeSeq hstamp).trans_le hle
      · exact (congrArg Stamp.changeSeq hstamp).trans_le (hlast f.2 hm htaken.1)
    · exact hle

/-! ### The answer arrives -/

/-- An answer that is taken in settles the copy. -/
theorem done_of_takes (h : Answered P log₁ answer rows') (ha : answer ∈ log₂.changes)
    (hc : Consistent log₂ t) (he : entryOf t.messages P.row.id = some e)
    (hle : e.changeSeq ≤ answer.changeSeq) (htakes : t.Takes answer) (viewer : Viewer) :
    Done P log₂ answer (receiveMessage viewer answer t).1 (absorb e answer) := by
  have htouch : log₂.touch answer.changeSeq answer.place := touch_of_mem ha
  have hentry := entryOf_receiveMessage viewer hc htouch he
  rw [if_pos ⟨h.id, htakes⟩] at hentry
  exact ⟨hc.receiveMessage htouch, hentry, changeSeq_absorb hle, h.reactions_absorb hle⟩

/-- **An answer that is dropped is not needed.** -/
theorem Nears.answered (h : Answered P log₁ answer rows') (ha : answer ∈ log₂.changes)
    (hn : Nears P log₂ answer t e) (viewer : Viewer) :
    ∃ e', Done P log₂ answer (receiveMessage viewer answer t).1 e' := by
  by_cases hnew : t.changeSeq < answer.changeSeq
  · exact ⟨_, done_of_takes h ha hn.consistent hn.entry hn.newer (.inr ⟨hn.ready, hnew⟩) viewer⟩
  · have heq := hn.ahead.resolve_left hnew
    rw [receiveMessage_dropped viewer hn.ready (not_lt.mp hnew)]
    exact ⟨e, hn.consistent, hn.entry, heq, hn.settled heq⟩

theorem knownMine_shownCopy (P : Pressing) (x : String) : knownMine P.shownCopy.reactions x
      = if x = P.emoji then P.add else knownMine P.before.reactions x :=
  knownMine_toggleReaction _ _ _ _

section

variable (h : Answered P log₁ answer rows')
include h

theorem Answered.mem_rows_iff {x : String} (hx : x ≠ P.emoji)
    (u : Ulid) : (u, x) ∈ rows' ↔ (u, x) ∈ P.rows :=
  mem_iff_of_changeReaction h.rows fun heq => hx (congrArg Prod.snd heq)

theorem Answered.mem_emojis_iff {x : String}
    (hx : x ≠ P.emoji) : x ∈ rows'.emojis ↔ x ∈ P.rows.emojis := by
  rw [mem_emojis, mem_emojis, List.mem_map, List.mem_map]
  constructor
  · rintro ⟨r, hr, rfl⟩
    exact ⟨r, (h.mem_rows_iff hx r.1).mp hr, rfl⟩
  · rintro ⟨r, hr, rfl⟩
    exact ⟨r, (h.mem_rows_iff hx r.1).mpr hr, rfl⟩

theorem Answered.map_emoji : answer.reactions.map MessageReaction.emoji = rows'.emojis := by
  rw [h.reactions, map_emoji_listMessageReactions]

/-- The number of the answer is new to the client where the request changes something, or the
server is ahead. -/
theorem Answered.isNew (hnew : P.rows.changesReaction P.userId P.emoji P.add = true ∨
      P.before.changeSeq < P.row.changeSeq ∧ P.timeline.changeSeq < P.row.changeSeq) :
    P.before.changeSeq < answer.changeSeq ∧ P.timeline.changeSeq < answer.changeSeq := by
  have hbefore := P.before_le_row
  have hrow := (P.log.wellFormed.changeSeq_bounds P.row_mem).2
  have hcursor := P.consistent.changeSeq_le
  cases hchanges : P.rows.changesReaction P.userId P.emoji P.add with
  | true =>
    rw [h.changed hchanges]
    exact ⟨Nat.lt_succ_of_le (hbefore.trans hrow), Nat.lt_succ_of_le hcursor⟩
  | false =>
    rw [h.same hchanges]
    exact hnew.resolve_left (Bool.eq_false_iff.mp hchanges)

end

/-- **Where the client is in step, the timeline settles.** -/
theorem settles_of_inStep (hin : P.InStep) : P.Settles := by
  intro log₁ answer hanswer log₂ hgoes hlast early late viewer hf
  obtain ⟨rows', h⟩ := exists_answered hanswer
  have ha : answer ∈ log₂.changes := hgoes.subset h.mem
  have hc : Consistent log₂ P.shown := P.consistent_shown.of_prefix (h.goesOn.trans hgoes)
  have hearly : ∀ f ∈ early, f.2 ∈ log₂.changes := fun f hf' => hf f (mem_append_left _ hf')
  have hlate : ∀ f ∈ late, f.2 ∈ log₂.changes := fun f hf' => hf f (mem_append_right _ hf')
  have hdone : ∃ e, Done P log₂ answer
      (receiveMessage viewer answer (receiveFrames early P.shown)).1 e := by
    rcases hin with hload | ⟨hnew, hknown, hown⟩
    · have hle : P.shownCopy.changeSeq ≤ answer.changeSeq :=
        P.before_le_row.trans (h.last P.row (h.goesOn.subset P.row_mem) rfl)
      obtain ⟨e, he, hele⟩ := exists_copy hlast hc P.entryOf_shown hle hearly
      exact ⟨_, done_of_takes h ha (hc.receiveFrames hearly) he hele
        (.inl (status_receiveFrames.trans hload)) viewer⟩
    · by_cases hload : P.timeline.status = .loading
      · have hle : P.shownCopy.changeSeq ≤ answer.changeSeq :=
          P.before_le_row.trans (h.last P.row (h.goesOn.subset P.row_mem) rfl)
        obtain ⟨e, he, hele⟩ := exists_copy hlast hc P.entryOf_shown hle hearly
        exact ⟨_, done_of_takes h ha (hc.receiveFrames hearly) he hele
          (.inl (status_receiveFrames.trans hload)) viewer⟩
      · obtain ⟨hbefore, hcursor⟩ := h.isNew hnew
        have hmine : ∀ r ∈ answer.reactions, r.me = some (knownMine P.shownCopy.reactions r.emoji) ∧
              (r.me = some true → P.Lasts r.emoji) := by
          intro r hr
          rw [h.me_eq hr, knownMine_shownCopy, some_inj, some_inj, decide_eq_true_iff]
          split
          · next hx =>
            rw [hx]
            have hon := mem_of_changeReaction h.rows
            exact ⟨by rw [Bool.eq_iff_iff, decide_eq_true_iff]; exact hon,
              fun hmem => hown (hon.mp hmem)⟩
          · next hx =>
            have hsame := h.mem_rows_iff hx P.userId
            have hmem : r.emoji ∈ P.rows.emojis :=
              (h.mem_emojis_iff hx).mp (h.map_emoji ▸ List.mem_map_of_mem hr)
            obtain ⟨hiff, hlasts⟩ := hknown r.emoji hmem hx
            exact ⟨by rw [Bool.eq_iff_iff, decide_eq_true_iff]; exact hsame.trans hiff.symm,
              fun hon => hlasts (hsame.mp hon)⟩
        have hn : Nears P log₂ answer P.shown P.shownCopy :=
          ⟨hc, P.opened.resolve_left hload, P.entryOf_shown, le_rfl, le_rfl, hbefore.le,
            fun heq => absurd heq hbefore.ne, fun r hr => (hmine r hr).1, .inl hcursor⟩
        obtain ⟨e, hn'⟩ := hn.receiveFrames h hgoes hlast (fun r hr => (hmine r hr).2) hearly
        exact hn'.answered h ha viewer
  obtain ⟨e, hd⟩ := hdone
  obtain ⟨e', hd'⟩ := hd.receiveFrames h hgoes hlast hlate
  rw [hd'.entry, map_some, hd'.reactions]

/-! ### Where the client is out of step -/

/-- Another message is posted to the room. -/
theorem exists_posted (log : RoomLog) : ∃ (log' : RoomLog) (x : Message),
    log'.changes = log.changes ++ [x] ∧ x.changeSeq = log.length + 1 ∧
      ∀ y ∈ log.changes, y.id ≠ x.id := by
  let n := (log.changes.map fun m => m.id + m.seq).sum + 1
  have hlt : ∀ y ∈ log.changes, y.id + y.seq < n := fun y hy =>
    Nat.lt_succ_of_le (single_le_sum (fun _ _ => Nat.zero_le _) _
      (List.mem_map_of_mem (f := fun m : Message => m.id + m.seq) hy))
  have hid : ∀ y ∈ log.changes, y.id ≠ n := fun y hy =>
    ((Nat.le_add_right y.id y.seq).trans_lt (hlt y hy)).ne
  refine ⟨⟨log.changes ++ [.said 0 n (log.length + 1)], log.wellFormed.snoc ⟨rfl, ?_, ?_⟩⟩, _, rfl,
    rfl, hid⟩
  · exact fun y hy heq => absurd heq (hid y hy)
  · exact fun _ => ⟨Nat.succ_pos _, fun y hy =>
      (Nat.le_add_left y.seq y.id).trans_lt (hlt y hy)⟩

/-- Another change of the room comes after the answer. -/
structure Followed (P : Pressing) (log₁ : RoomLog) (answer : Message) (log₂ : RoomLog)
    (x : Message) : Prop where
  goesOn : log₁.changes <+: log₂.changes
  last : Last P log₂ answer
  mem : x ∈ log₂.changes
  ne : x.id ≠ P.row.id
  lt : answer.changeSeq < x.changeSeq

theorem Answered.exists_followed (h : Answered P log₁ answer rows') :
    ∃ log₂ x, Followed P log₁ answer log₂ x := by
  obtain ⟨log₂, x, hlog₂, hnumber, hfresh⟩ := exists_posted log₁
  have hne : x.id ≠ P.row.id := fun heq => hfresh P.row (h.goesOn.subset P.row_mem) heq.symm
  refine ⟨log₂, x, hlog₂ ▸ prefix_append _ _, fun y hy hid => ?_,
    hlog₂ ▸ mem_append_right _ (mem_singleton_self x), hne, ?_⟩
  · rw [hlog₂] at hy
    rcases mem_append.mp hy with hy | hy
    · exact h.last y hy hid
    · exact absurd (mem_singleton.mp hy ▸ hid) hne
  · rw [hnumber]
    exact Nat.lt_succ_of_le (log₁.wellFormed.changeSeq_bounds h.mem).2

section OutOfStep

variable {x : Message} (hs : P.Settles) (hans : P.answer = some (log₁, answer))
  (h : Answered P log₁ answer rows') (hfol : Followed P log₁ answer log₂ x)
  (hready : P.timeline.status = .ready) {r : MessageReaction}

include h hfol in
theorem consistent_shown_followed : Consistent log₂ P.shown :=
  P.consistent_shown.of_prefix (h.goesOn.trans hfol.goesOn)

include hs hans h hfol hready

/-- **What frames make of the copy is not undone by the answer**, because the cursor may pass it
first. -/
theorem reactions_of_settles (hf : ∀ f ∈ frames, f.2 ∈ log₂.changes)
    (he : entryOf (receiveFrames frames P.shown).messages P.row.id = some e)
    (hnumber : e.changeSeq = answer.changeSeq) : e.reactions = answer.reactions := by
  let viewer : Viewer := ⟨0, none, false⟩
  have hc := (consistent_shown_followed h hfol).receiveFrames hf
  have hready' : (receiveFrames frames P.shown).status = .ready :=
    status_receiveFrames.trans hready
  obtain ⟨passing, hpassing, hentry, hle⟩ :=
    exists_passing hc hready' he hfol.mem hfol.ne (hnumber ▸ hfol.lt)
  have hsettled := hs log₁ answer hans log₂ hfol.goesOn hfol.last (frames ++ passing) [] viewer
    fun f hmem => by
      rw [append_nil] at hmem
      exact (mem_append.mp hmem).elim (hf f) (hpassing f)
  rw [receiveFrames_append] at hsettled
  have hdropped : receiveFrames [] (receiveMessage viewer answer
      (receiveFrames passing (receiveFrames frames P.shown))).1
        = receiveFrames passing (receiveFrames frames P.shown) :=
    receiveMessage_dropped viewer (status_receiveFrames.trans hready') (hnumber ▸ hle)
  rw [hdropped, hentry] at hsettled
  exact Option.some.inj hsettled

/-- The answer brings a new number: where it does not, what was shown at once stays. -/
theorem isNew_of_settles (hkept : P.Kept) : P.rows.changesReaction P.userId P.emoji P.add = true ∨
      P.before.changeSeq < P.row.changeSeq ∧ P.timeline.changeSeq < P.row.changeSeq := by
  by_contra hno
  obtain ⟨hsame, hbehind⟩ := not_or.mp hno
  have hrow := h.same (Bool.eq_false_iff.mpr hsame)
  have hnumber : P.before.changeSeq = P.row.changeSeq := by
    refine P.before_le_row.antisymm (not_lt.mp fun hlt => ?_)
    have hpassed : P.row.changeSeq ≤ P.timeline.changeSeq :=
      not_lt.mp fun hcursor => hbehind ⟨hlt, hcursor⟩
    exact absurd (hkept P.row P.row_mem rfl hpassed) hlt.not_ge
  have hno : ∀ f ∈ ([] : List (Viewer × Message)), f.2 ∈ log₂.changes :=
    fun f hf => nomatch hf
  have heq : P.shownCopy.reactions = P.row.reactions := by
    rw [← hrow]
    exact reactions_of_settles hs hans h hfol hready hno P.entryOf_shown
      (hnumber.trans (by rw [hrow]))
  -- to everybody, the copy showed what the row has
  have hseen : P.before.reactions.map (fun r => (r.emoji, r.count))
      = P.row.reactions.map fun r => (r.emoji, r.count) := by
    have hshared : ∀ m : Message, m.shared.reactions.map (fun r => (r.emoji, r.count))
        = m.reactions.map fun r => (r.emoji, r.count) := fun m => List.map_map
    obtain ⟨v, hv, hversion⟩ := P.version
    have hvrow : v = P.row := by
      refine P.log.wellFormed.eq_of_changeSeq hv P.row_mem (Eq.trans ?_ hnumber)
      show v.shared.changeSeq = P.before.shared.changeSeq
      rw [hversion]
    refine (hshared P.before).symm.trans (Eq.trans ?_ (hshared P.row))
    rw [hversion, hvrow]
  have hemojis : P.before.reactions.map MessageReaction.emoji = P.rows.emojis := by
    have hfst := congrArg (List.map Prod.fst) hseen
    rw [List.map_map, List.map_map] at hfst
    refine Eq.trans hfst ?_
    rw [P.reactions]
    exact map_emoji_listMessageReactions _ _
  refine toggleReaction_ne (hemojis ▸ P.rows.nodup_emojis) P.emoji P.userId ?_
  rw [hseen, ← heq]
  rfl

/-- **The frame of the answer may come first**, so what the copy says of the viewer has to be
right. -/
theorem mine_of_settles (hf : ∀ f ∈ frames, f.2 ∈ log₂.changes)
    (he : entryOf (receiveFrames frames P.shown).messages P.row.id = some e)
    (hle : e.changeSeq ≤ answer.changeSeq)
    (hahead : (receiveFrames frames P.shown).changeSeq < answer.changeSeq) (hr : r ∈ answer.reactions) :
    r.me = some (knownMine e.reactions r.emoji) := by
  let viewer : Viewer := ⟨0, none, false⟩
  have ha : answer ∈ log₂.changes := hfol.goesOn.subset h.mem
  have hmore : ∀ f ∈ frames ++ [(viewer, answer)], f.2 ∈ log₂.changes := by
    intro f hmem
    rcases mem_append.mp hmem with hmem | hmem
    · exact hf f hmem
    · exact mem_singleton.mp hmem ▸ ha
  have hentry := entryOf_receiveMessage viewer
    ((consistent_shown_followed h hfol).receiveFrames hf) (touch_shared ha) he
  have htakes : (receiveFrames frames P.shown).Takes answer.shared :=
    .inr ⟨status_receiveFrames.trans hready, hahead⟩
  rw [if_pos ⟨h.id, htakes⟩] at hentry
  have hequal : (absorb e answer.shared).reactions = answer.reactions :=
    reactions_of_settles hs hans h hfol hready hmore (by rw [receiveFrames_append]; exact hentry)
      (changeSeq_absorb (m := answer.shared) hle)
  rw [reactions_absorb_shared hle, keepMyReactions_shared] at hequal
  have hmap : answer.reactions.map (fun r => { r with me := some (knownMine e.reactions r.emoji) })
      = answer.reactions.map id := hequal.trans (List.map_id _).symm
  exact (congrArg MessageReaction.me (map_inj_left.mp hmap r hr)).symm

/-- **And the frame of a version before it may come before that**, so the viewer's reactions have
to be in every one of them. -/
theorem lasts_of_settles (hbefore : P.before.changeSeq < answer.changeSeq)
    (hcursor : P.timeline.changeSeq < answer.changeSeq)
    (hr : r ∈ answer.reactions) (hme : r.me = some true) : P.Lasts r.emoji := by
  intro v hv hid hvcursor hvbefore
  let viewer : Viewer := ⟨0, none, false⟩
  have ha : answer ∈ log₂.changes := hfol.goesOn.subset h.mem
  have hv₂ : v ∈ log₂.changes := (h.goesOn.trans hfol.goesOn).subset hv
  have hc := consistent_shown_followed h hfol
  have hle : P.shownCopy.changeSeq ≤ v.changeSeq := hvbefore
  rcases (hfol.last v hv₂ hid).lt_or_eq with hvlt | hveq
  · have hentry := entryOf_receiveMessage viewer hc (touch_shared hv₂) P.entryOf_shown
    have htakes : P.shown.Takes v.shared := .inr ⟨hready, hvcursor⟩
    rw [if_pos ⟨hid, htakes⟩] at hentry
    have hnumber : (absorb P.shownCopy v.shared).changeSeq = v.changeSeq :=
      changeSeq_absorb (m := v.shared) hvbefore
    have hahead : (receiveMessage viewer v.shared P.shown).1.changeSeq < answer.changeSeq :=
      (cursor_lt_or viewer hc ha (touch_shared hv₂) (h.id ▸ P.entryOf_shown) hready hcursor
        (h.id ▸ hentry)).resolve_right (by rw [hnumber]; exact hvlt.not_ge)
    have hone : ∀ f ∈ [(viewer, v)], f.2 ∈ log₂.changes :=
      fun f hf => mem_singleton.mp hf ▸ hv₂
    have hmine := mine_of_settles hs hans h hfol hready hone hentry (hnumber ▸ hvlt.le) hahead hr
    rw [hme, reactions_absorb_shared hle, keepMyReactions_shared, knownMine_map_me,
      some_inj] at hmine
    exact of_decide_eq_true ((Bool.and_eq_true _ _).mp hmine.symm).1
  · obtain rfl := log₂.wellFormed.eq_of_changeSeq hv₂ ha hveq
    exact List.mem_map_of_mem hr

end OutOfStep

/-- **Where the timeline settles, the client is in step**, if the cursor keeps its promise. -/
theorem inStep_of_settles (hkept : P.Kept) (hans : P.answer = some (log₁, answer))
    (hs : P.Settles) : P.InStep := by
  obtain ⟨rows', h⟩ := exists_answered hans
  refine P.opened.imp_right fun hready => ?_
  obtain ⟨log₂, x, hfol⟩ := h.exists_followed
  have hnew := isNew_of_settles hs hans h hfol hready hkept
  obtain ⟨hbefore, hcursor⟩ := h.isNew hnew
  have hno : ∀ f ∈ ([] : List (Viewer × Message)), f.2 ∈ log₂.changes :=
    fun f hf => nomatch hf
  have hlasts : ∀ r ∈ answer.reactions, r.me = some true → P.Lasts r.emoji := fun r hr hme =>
    lasts_of_settles hs hans h hfol hready hbefore hcursor hr hme
  refine ⟨hnew, fun y hy hne => ?_, fun hadd => ?_⟩
  · obtain ⟨r, hr, rfl⟩ := List.mem_map.mp (h.map_emoji ▸ (h.mem_emojis_iff hne).mpr hy)
    have hme := h.me_eq hr
    have hmine := mine_of_settles hs hans h hfol hready hno P.entryOf_shown hbefore.le hcursor hr
    rw [hme, knownMine_shownCopy, if_neg hne, some_inj, Bool.eq_iff_iff, decide_eq_true_iff,
      h.mem_rows_iff hne] at hmine
    refine ⟨hmine.symm, fun hon => hlasts r hr ?_⟩
    rw [hme, decide_eq_true ((h.mem_rows_iff hne P.userId).mpr hon)]
  · have hon := (mem_of_changeReaction h.rows).mpr hadd
    have hmem : P.emoji ∈ rows'.emojis :=
      mem_emojis.mpr (List.mem_map_of_mem (f := Prod.snd) hon)
    obtain ⟨r, hr, hemoji⟩ := List.mem_map.mp (h.map_emoji ▸ hmem)
    rw [← hemoji] at hon ⊢
    refine hlasts r hr ?_
    rw [h.me_eq hr, decide_eq_true hon]

/-- **A pressed emoji settles on the answer** where the client is in step with the server, and, if
the cursor keeps its promise for the message, only there. A failed request leaves the timeline as
it was. -/
theorem toggle_settles_iff (P : Pressing) : P.Reverts ∧ (P.InStep → P.Settles) ∧
      (P.Kept → P.answer.isSome = true → P.Settles → P.InStep) := by
  refine ⟨P.reverts, settles_of_inStep, fun hkept hans hs => ?_⟩
  obtain ⟨⟨log₁, answer⟩, hans⟩ := isSome_iff_exists.mp hans
  exact inStep_of_settles hkept hans hs

/-! ### Two presses -/

/-- A message of user 7, and its version with the thumb of user 1 on it. -/
def thumbed (me : Option Bool) : Message :=
  { Message.said 7 1 2 with reactions := [⟨"👍", 1, me, [1]⟩] }

/-- A timeline with one message. -/
def showing (message : Message) : TimelineState where
  status := .ready
  messages := [message]
  hasOlder := false
  loadingOlder := false
  hasNewer := false
  loadingNewer := false
  unreadAfterSeq := none
  unreadAtOpen := 0
  changeSeq := message.changeSeq

theorem consistent_showing {log : RoomLog} {message v : Message} (hv : v ∈ log.changes)
    (hstamp : message.stamp = v.stamp) : Consistent log (showing message) where
  tidy := ⟨nodup_singleton _, pairwise_singleton _ _⟩
  genuine := genuine_iff.mpr fun m hm => by
    rw [mem_singleton.mp hm]
    show message.stamp ∈ _
    rw [hstamp]
    exact touch_of_mem hv
  changeSeq_le := by
    have hseq : message.changeSeq = v.changeSeq := congrArg Stamp.changeSeq hstamp
    exact hseq.trans_le (log.wellFormed.changeSeq_bounds hv).2

/-- User 1 puts the first thumb on a message. -/
def firstThumb : Pressing where
  log := ⟨[.said 7 1 1], .snoc .nil (by decide)⟩
  row := .said 7 1 1
  rows := []
  userId := 1
  emoji := "👍"
  timeline := showing (.said 7 1 1)
  before := .said 7 1 1
  row_mem := .head _
  newest := by decide
  reactions := rfl
  consistent := consistent_showing (.head _) rfl
  opened := Or.inr rfl
  held := rfl
  version := ⟨_, .head _, rfl⟩

theorem firstThumb_settles : firstThumb.InStep ∧ firstThumb.Settles := by
  have hin : firstThumb.InStep := by
    refine Or.inr ⟨Or.inl (by decide), fun x hx => absurd hx not_mem_nil, fun _ v hv _ hlt => ?_⟩
    rw [mem_singleton.mp hv] at hlt
    exact absurd hlt (by decide)
  exact ⟨hin, firstThumb.toggle_settles_iff.2.1 hin⟩

/-- User 1 presses the thumb that it has put on in another tab. The frame of that did not say whose
thumb it is. -/
def secondThumb : Pressing where
  log := ⟨[.said 7 1 1, thumbed (some true)], .snoc (.snoc .nil (by decide)) (by decide)⟩
  row := thumbed (some true)
  rows := [(1, "👍")]
  userId := 1
  emoji := "👍"
  timeline := showing (absorb (.said 7 1 1) (thumbed (some true)).shared)
  before := absorb (.said 7 1 1) (thumbed (some true)).shared
  row_mem := .tail _ (.head _)
  newest := by decide
  reactions := by decide
  consistent := consistent_showing (.tail _ (.head _)) rfl
  opened := Or.inr rfl
  held := by decide
  version := ⟨_, .tail _ (.head _), by decide⟩

/-- **The answer to a press that changes nothing is dropped**: two thumbs are shown where there is
one. -/
theorem secondThumb_stays : secondThumb.Kept ∧ ¬secondThumb.Settles ∧
    secondThumb.answer = some (secondThumb.log, thumbed (some true)) ∧
    (entryOf (receiveMessage ⟨1, none, false⟩ (thumbed (some true)) secondThumb.shown).1.messages
      1).map Message.reactions = some [⟨"👍", 2, some true, [1, 1]⟩] := by
  have hanswer : secondThumb.answer = some (secondThumb.log, thumbed (some true)) := by rfl
  have hstays : (entryOf (receiveMessage ⟨1, none, false⟩ (thumbed (some true))
      secondThumb.shown).1.messages 1).map Message.reactions
        = some [⟨"👍", 2, some true, [1, 1]⟩] := by decide
  have hkept : secondThumb.Kept := by
    unfold Kept
    decide
  refine ⟨hkept, fun hs => ?_, hanswer, hstays⟩
  have hsettled := hs _ _ hanswer secondThumb.log prefix_rfl secondThumb.newest [] []
    ⟨1, none, false⟩ fun f hf => nomatch hf
  exact absurd (hstays.symm.trans hsettled) (by decide)

end Pressing

end Hibari
