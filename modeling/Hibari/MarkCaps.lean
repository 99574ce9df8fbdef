import Hibari.RoomMarks

/-!
# What a request writes of pins and reactions

What a request has decided under the lock of its message (`MarkedRoom.Due`) and under that of the
room (`MarkedRoom.Fits`), and what it writes then. The caps of the room are kept
(`MarkedRoom.Capped.perform`): a pin is counted while the row of the room is held, which every
request that pins has to hold, and the kinds of reactions while that of the message is. A message
that is written gets a number that no message had (`MarkedRoom.row_perform`). Who writes for a pin
or a reaction changes one, and who sends a message changes none.
-/

namespace Hibari

open List Function

namespace ReactionRows

variable {rows rows' : ReactionRows} {userId : Ulid} {emoji : String} {add : Bool}

theorem countKinds_eq (rows : ReactionRows) :
    rows.countKinds = (rows.map Prod.snd).toFinset.card := by
  unfold countKinds emojis
  rw [length_reverse, card_toFinset, ← card_toFinset, ← card_toFinset, toFinset_reverse]

section

variable (h : rows.changeReaction userId emoji add = some rows')
include h

/-- One row for each user and emoji. -/
theorem nodup_of_changeReaction (hnodup : rows.Nodup) : rows'.Nodup := by
  unfold changeReaction addMessageReaction removeMessageReaction at h
  cases add with
  | false =>
    cases h
    exact hnodup.filter _
  | true =>
    rw [if_pos rfl] at h
    split at h
    · cases h
      split
      · exact hnodup
      · next hmem =>
        exact concat_eq_append ▸ hnodup.concat hmem
    · cases h

/-- **The cap on the kinds of reactions is kept.** -/
theorem countKinds_of_changeReaction
    (hkinds : rows.countKinds ≤ maxReactionKinds) : rows'.countKinds ≤ maxReactionKinds := by
  unfold changeReaction addMessageReaction removeMessageReaction at h
  cases add with
  | false =>
    cases h
    rw [countKinds_eq] at hkinds ⊢
    refine le_trans (Finset.card_le_card fun e he => ?_) hkinds
    rw [mem_toFinset] at he ⊢
    exact (filter_sublist.map _).subset he
  | true =>
    rw [if_pos rfl] at h
    split at h
    · next hcheck =>
      cases h
      split
      · exact hkinds
      · have hkinds' : (rows.map Prod.snd).toFinset.card ≤ maxReactionKinds :=
          countKinds_eq rows ▸ hkinds
        have hset : ((rows ++ [(userId, emoji)]).map Prod.snd).toFinset
            = insert emoji (rows.map Prod.snd).toFinset := by
          ext e
          simp
        rw [countKinds_eq, hset]
        rcases (Bool.or_eq_true _ _).mp hcheck with hless | hthere
        · have hlt : (rows.map Prod.snd).toFinset.card < maxReactionKinds :=
            countKinds_eq rows ▸ of_decide_eq_true hless
          exact (Finset.card_insert_le _ _).trans hlt
        · rw [Finset.insert_eq_of_mem (mem_toFinset.mpr (of_decide_eq_true hthere))]
          exact hkinds'
    · cases h

/-- The rows that a request leaves, if it is not refused. -/
theorem eq_ite_of_changeReaction : (if add then rows.addMessageReaction userId emoji
      else rows.removeMessageReaction userId emoji) = rows' := by
  unfold changeReaction at h
  cases add with
  | false => exact Option.some.inj h
  | true =>
    rw [if_pos rfl] at h
    split at h
    · exact Option.some.inj h
    · cases h

theorem ne_of_changeReaction
    (hchanges : rows.changesReaction userId emoji add = true) : rows' ≠ rows := by
  rintro rfl
  have hmem := mem_of_changeReaction h
  unfold changesReaction at hchanges
  cases add <;> simp_all

end

end ReactionRows

open ReactionRows

namespace MarkedRoom

variable {db : MarkedRoom} {w : MarkRequest} {x : MarkWrite} {id : Ulid}
  {j : Ulid} {m : MarkedMessage} {f : MarkedMessage → MarkedMessage}

/-! ## What a write changes -/

@[simp] theorem room_updateMessage (f : MarkedMessage → MarkedMessage) :
    (db.updateMessage id f).room = db.room := rfl

@[simp] theorem ids_updateMessage (f : MarkedMessage → MarkedMessage) :
    (db.updateMessage id f).ids = db.ids := rfl

theorem row_updateMessage_self (f : MarkedMessage → MarkedMessage) :
    (db.updateMessage id f).row id = f (db.row id) := update_self id _ db.row

theorem row_updateMessage_of_ne (f : MarkedMessage → MarkedMessage) (h : j ≠ id) :
    (db.updateMessage id f).row j = db.row j := update_of_ne h _ db.row

@[simp] theorem room_createMessage (m : MarkedMessage) :
    (db.createMessage id m).room = db.room := by
  unfold createMessage
  split <;> rfl

theorem ids_createMessage (h : id ∉ db.ids) :
    (db.createMessage id m).ids = id :: db.ids := by rw [createMessage, dif_neg h]

theorem row_createMessage_self (h : id ∉ db.ids) : (db.createMessage id m).row id = m := by
  rw [createMessage, dif_neg h]
  exact update_self id m db.row

theorem row_createMessage_of_mem (h : id ∉ db.ids)
    (hj : j ∈ db.ids) : (db.createMessage id m).row j = db.row j := by
  rw [createMessage, dif_neg h]
  have hne : j ≠ id := fun heq => h (heq ▸ hj)
  exact update_of_ne hne m db.row

/-! ## The caps -/

/-- **The caps of a room**: on its pins, none of them of a deleted message, and on the kinds of the
reactions to each message; of one user there is one of a kind. -/
structure Capped (db : MarkedRoom) : Prop where
  pins : db.countRoomPins ≤ maxRoomPins
  deleted : ∀ id ∈ db.ids, (db.row id).deleted = true → (db.row id).pinned = none
  reactions : ∀ id ∈ db.ids, (db.row id).reactions.Nodup
  kinds : ∀ id ∈ db.ids, (db.row id).reactions.countKinds ≤ maxReactionKinds

theorem countRoomPins_updateMessage_le (f : MarkedMessage → MarkedMessage) :
    (db.updateMessage id f).countRoomPins ≤ db.countRoomPins + 1 := by
  have hcount : ∀ l : List Ulid, l.countP (fun j => ((db.updateMessage id f).row j).pinned.isSome)
        ≤ l.countP (fun j => (db.row j).pinned.isSome) + l.count id := by
    intro l
    induction l with
    | nil => exact Nat.le_refl _
    | cons j =>
      rw [countP_cons, countP_cons, count_cons]
      by_cases hj : j = id
      · rw [if_pos (beq_iff_eq.mpr hj)]
        split <;> split <;> omega
      · rw [row_updateMessage_of_ne f hj, if_neg (fun h => hj (beq_iff_eq.mp h))]
        omega
  exact (hcount db.ids).trans (Nat.add_le_add_left (nodup_iff_count_le_one.mp db.nodup id) _)

theorem countRoomPins_updateMessage_le_of_imp
    (h : (f (db.row id)).pinned.isSome = true → (db.row id).pinned.isSome = true) :
    (db.updateMessage id f).countRoomPins ≤ db.countRoomPins := by
  refine countP_mono_left fun j _ hj => ?_
  by_cases hid : j = id
  · rw [hid, row_updateMessage_self] at hj
    exact hid ▸ h hj
  · rwa [row_updateMessage_of_ne f hid] at hj

section

variable (h : db.Capped)
include h

theorem Capped.updateMessage (hpins : (f (db.row id)).pinned.isSome = true →
      (db.row id).pinned.isSome = true ∨ db.countRoomPins < maxRoomPins)
    (hdeleted : id ∈ db.ids → (f (db.row id)).deleted = true → (f (db.row id)).pinned = none)
    (hreactions : id ∈ db.ids → (f (db.row id)).reactions.Nodup)
    (hkinds : id ∈ db.ids → (f (db.row id)).reactions.countKinds ≤ maxReactionKinds) :
    (db.updateMessage id f).Capped where
  pins := by
    by_cases hlt : db.countRoomPins < maxRoomPins
    · exact (countRoomPins_updateMessage_le f).trans hlt
    · exact (countRoomPins_updateMessage_le_of_imp
        fun hsome => (hpins hsome).resolve_right hlt).trans h.pins
  deleted j hj := by
    by_cases hid : j = id
    · subst hid
      rw [row_updateMessage_self]
      exact hdeleted hj
    · rw [row_updateMessage_of_ne f hid]
      exact h.deleted j hj
  reactions j hj := by
    by_cases hid : j = id
    · subst hid
      rw [row_updateMessage_self]
      exact hreactions hj
    · rw [row_updateMessage_of_ne f hid]
      exact h.reactions j hj
  kinds j hj := by
    by_cases hid : j = id
    · subst hid
      rw [row_updateMessage_self]
      exact hkinds hj
    · rw [row_updateMessage_of_ne f hid]
      exact h.kinds j hj

theorem Capped.number (id : Ulid) (n : ℕ) :
    (db.updateMessage id fun m => { m with changeSeq := n }).Capped :=
  h.updateMessage (fun hsome => .inl hsome) (h.deleted id) (h.reactions id) (h.kinds id)

theorem Capped.createMessage (hid : id ∉ db.ids)
    (hpinned : m.pinned = none) (hreactions : m.reactions = []) :
    (db.createMessage id m).Capped := by
  have hrows : ∀ p : MarkedMessage → Prop, p m → (∀ j ∈ db.ids, p (db.row j)) →
      ∀ j ∈ (db.createMessage id m).ids, p ((db.createMessage id m).row j) := by
    intro p hm hold j hj
    rw [ids_createMessage hid] at hj
    rcases mem_cons.mp hj with rfl | hj
    · rwa [row_createMessage_self hid]
    · rw [row_createMessage_of_mem hid hj]
      exact hold j hj
  have hpins : (db.createMessage id m).countRoomPins = db.countRoomPins := by
    unfold countRoomPins
    rw [ids_createMessage hid, countP_cons, row_createMessage_self hid, hpinned]
    refine countP_congr fun j hj => ?_
    rw [row_createMessage_of_mem hid hj]
  refine ⟨hpins ▸ h.pins, hrows (fun m => m.deleted = true → m.pinned = none) (fun _ => hpinned)
    h.deleted, hrows (fun m => m.reactions.Nodup) ?_ h.reactions,
    hrows (fun m => m.reactions.countKinds ≤ maxReactionKinds) ?_ h.kinds⟩
  · rw [hreactions]
    exact nodup_nil
  · rw [hreactions]
    exact Nat.zero_le _

theorem Capped.room (r : RoomRecord) : ({ db with room := r } : MarkedRoom).Capped :=
  ⟨h.pins, h.deleted, h.reactions, h.kinds⟩

/-! ## What a request may write -/

end

/-- A message that is there and not deleted. -/
def Live (db : MarkedRoom) (id : Ulid) : Prop := id ∈ db.ids ∧ (db.row id).deleted = false

/-- **What a request has decided** under the lock of its message. -/
def Due (db : MarkedRoom) (root : Option Ulid) : MarkRequest → Prop
  | .changePin _ message pin _ => db.Live message ∧ (db.row message).pinned.isSome ≠ pin
  | .changeReaction actor message emoji add => db.Live message ∧
      ((db.row message).reactions.changeReaction actor emoji add).isSome = true ∧
        (db.row message).reactions.changesReaction actor emoji add = true
  | .deleteMessage _ message => message ∈ db.ids ∧ root = (db.row message).threadRootId
  | .sendMessage _ _ _ | .sendThreadReply _ _ _ _ _ => True

/-- **What a request has decided** under the lock of the room. -/
def Fits (db : MarkedRoom) : MarkRequest → Prop
  | .changePin _ _ pin _ => pin = true → db.countRoomPins < maxRoomPins
  | .sendMessage _ _ id | .sendThreadReply _ _ id _ _ => id ∉ db.ids
  | .changeReaction _ _ _ _ | .deleteMessage _ _ => True

/-- **A request that may write.** -/
structure Writes (db : MarkedRoom) (w : MarkRequest) (x : MarkWrite) : Prop where
  due : db.Due x.root w
  fits : db.Fits w
  numbered : w.numbered x.root db.room = some x.numbers

end MarkedRoom

/-- How many numbers a request takes. -/
def MarkRequest.taken (w : MarkRequest) (root : Option Ulid) : ℕ :=
  match w with
  | .changePin _ _ _ _ | .changeReaction _ _ _ _ | .sendMessage _ _ _ => 1
  | .deleteMessage _ _ => if root.isSome then 2 else 1
  | .sendThreadReply _ _ _ _ _ => 2

theorem MarkRequest.last_of_numbered {w : MarkRequest} {root : Option Ulid}
    {r numbers : RoomRecord} (h : w.numbered root r = some numbers) :
    numbers.lastChangeSeq = r.lastChangeSeq + w.taken root := by
  have hchange : ∀ n, r.allocateChangeSeq n = some numbers →
      numbers.lastChangeSeq = r.lastChangeSeq + n := by
    intro n h
    unfold RoomRecord.allocateChangeSeq at h
    split at h
    · cases h
    · rw [← Option.some.inj h]
  cases w with
  | deleteMessage => exact hchange _ h
  | sendMessage =>
    have h : (if r.archived then none else some _) = some numbers := h
    split at h
    · cases h
    · rw [← Option.some.inj h]
      rfl
  | sendThreadReply =>
    have h : (if r.archived then none else some _) = some numbers := h
    by_cases harchived : r.archived = true
    · rw [if_pos harchived] at h
      cases h
    · rw [if_neg harchived] at h
      rw [← Option.some.inj h]
      rfl
  | _ => exact hchange 1 h

namespace MarkedRoom

variable {db db' : MarkedRoom} {w : MarkRequest} {x : MarkWrite} {id : Ulid}

theorem room_perform (db : MarkedRoom) (w : MarkRequest) (x : MarkWrite) :
    (db.perform w x).room = x.numbers := by
  cases w with
  | changePin | changeReaction => rfl
  | deleteMessage =>
    unfold perform
    cases x.root <;> rfl
  | _ => exact room_createMessage _

theorem mem_ids_perform (h : db.Writes w x) :
    id ∈ (db.perform w x).ids ↔ id ∈ db.ids ∨ w.sends = true ∧ id = w.subject := by
  cases w with
  | deleteMessage =>
    unfold perform
    cases x.root <;> simp [MarkRequest.sends]
  | sendMessage actor clientMsgId id' =>
    have hfits : id' ∉ db.ids := h.fits
    have hids : (db.perform (.sendMessage actor clientMsgId id') x).ids = id' :: db.ids :=
      ids_createMessage hfits
    rw [hids, mem_cons, or_comm]
    simp [MarkRequest.sends, MarkRequest.subject]
  | sendThreadReply actor clientMsgId id' root alsoInChannel =>
    have hfits : id' ∉ db.ids := h.fits
    have hids : (db.perform (.sendThreadReply actor clientMsgId id' root alsoInChannel)
      x).ids = id' :: db.ids :=
      ids_createMessage hfits
    rw [hids, mem_cons, or_comm]
    simp [MarkRequest.sends, MarkRequest.subject]
  | _ => simp [perform, MarkRequest.sends]

theorem row_perform_sendThreadReply {actor clientMsgId id' root : Ulid} {alsoInChannel : Bool}
    (hfits : id' ∉ db.ids) (hid : id ∈ db.ids) :
    (db.perform (.sendThreadReply actor clientMsgId id' root alsoInChannel) x).row id
      = (({ db with room := x.numbers } : MarkedRoom).updateMessage root fun m =>
        { m with changeSeq := x.numbers.lastChangeSeq }).row id :=
  row_createMessage_of_mem hfits hid

/-- **A write to a message gives it a new number**, and it is of a message that is held. -/
theorem row_perform (h : db.Writes w x) (hid : id ∈ db.ids) :
    (db.perform w x).row id = db.row id ∨ .message id ∈ w.readRows (some x) ∧
      db.room.lastChangeSeq < ((db.perform w x).row id).changeSeq ∧
        ((db.perform w x).row id).changeSeq ≤ x.numbers.lastChangeSeq := by
  have hlast := MarkRequest.last_of_numbered h.numbered
  cases w with
  | changePin _ message =>
    unfold perform
    by_cases hm : id = message
    · subst hm
      refine .inr ⟨by simp [MarkRequest.readRows, MarkRequest.targetRows, MarkRequest.target], ?_⟩
      rw [row_updateMessage_self]
      exact ⟨hlast ▸ Nat.lt_succ_self _, Nat.le_refl _⟩
    · exact .inl (row_updateMessage_of_ne _ hm)
  | changeReaction _ message =>
    unfold perform
    by_cases hm : id = message
    · subst hm
      refine .inr ⟨by simp [MarkRequest.readRows, MarkRequest.targetRows, MarkRequest.target], ?_⟩
      rw [row_updateMessage_self]
      exact ⟨hlast ▸ Nat.lt_succ_self _, Nat.le_refl _⟩
    · exact .inl (row_updateMessage_of_ne _ hm)
  | deleteMessage _ message =>
    unfold perform
    cases hroot : x.root with
    | none =>
      rw [hroot] at hlast
      by_cases hm : id = message
      · subst hm
        refine .inr ⟨by simp [MarkRequest.readRows, MarkRequest.targetRows, MarkRequest.target], ?_⟩
        simp only [row_updateMessage_self]
        exact ⟨hlast ▸ Nat.lt_succ_self _, Nat.le_refl _⟩
      · exact .inl (row_updateMessage_of_ne _ hm)
    | some root =>
      have hlast' : x.numbers.lastChangeSeq = db.room.lastChangeSeq + 2 := by
        rw [hlast, hroot]
        rfl
      by_cases hr : id = root
      · subst hr
        refine .inr ⟨by simp [MarkRequest.readRows, hroot], ?_⟩
        simp only [row_updateMessage_self]
        omega
      · simp only [row_updateMessage_of_ne _ hr]
        by_cases hm : id = message
        · subst hm
          refine .inr ⟨by simp [MarkRequest.readRows, MarkRequest.targetRows,
            MarkRequest.target], ?_⟩
          simp only [row_updateMessage_self]
          omega
        · exact .inl (row_updateMessage_of_ne _ hm)
  | sendMessage actor clientMsgId id' =>
    have hfits : id' ∉ db.ids := h.fits
    have hrow : (db.perform (.sendMessage actor clientMsgId id') x).row id = db.row id :=
      row_createMessage_of_mem hfits hid
    exact .inl hrow
  | sendThreadReply _ _ id' root =>
    have hfits : id' ∉ db.ids := h.fits
    rw [row_perform_sendThreadReply hfits hid]
    by_cases hr : id = root
    · subst hr
      refine .inr ⟨by simp [MarkRequest.readRows, MarkRequest.targetRows, MarkRequest.target], ?_⟩
      rw [row_updateMessage_self]
      have hlast' : x.numbers.lastChangeSeq = db.room.lastChangeSeq + 2 := hlast
      simp only
      omega
    · exact .inl (row_updateMessage_of_ne _ hr)

/-- A message that is sent has no marks, and a new number. -/
theorem row_perform_subject (h : db.Writes w x) (hsends : w.sends = true) :
    ((db.perform w x).row w.subject).pinned = none ∧
      ((db.perform w x).row w.subject).reactions = [] ∧
      ((db.perform w x).row w.subject).deleted = false ∧
      db.room.lastChangeSeq < ((db.perform w x).row w.subject).changeSeq ∧
        ((db.perform w x).row w.subject).changeSeq ≤ x.numbers.lastChangeSeq := by
  have hlast := MarkRequest.last_of_numbered h.numbered
  cases w with
  | sendMessage actor clientMsgId id' =>
    have hfits : id' ∉ db.ids := h.fits
    have hrow : (db.perform (.sendMessage actor clientMsgId id') x).row id'
        = userMessage actor clientMsgId none x.numbers.lastChangeSeq := row_createMessage_self hfits
    rw [MarkRequest.subject, hrow]
    exact ⟨rfl, rfl, rfl, hlast ▸ Nat.lt_succ_self _, Nat.le_refl _⟩
  | sendThreadReply actor clientMsgId id' root alsoInChannel =>
    have hfits : id' ∉ db.ids := h.fits
    have hrow : (db.perform (.sendThreadReply actor clientMsgId id' root alsoInChannel) x).row id'
        = userMessage actor clientMsgId (some root) (x.numbers.lastChangeSeq - 1) :=
      row_createMessage_self hfits
    have hlast' : x.numbers.lastChangeSeq = db.room.lastChangeSeq + 2 := hlast
    rw [MarkRequest.subject, hrow]
    refine ⟨rfl, rfl, rfl, ?_⟩
    simp only [userMessage]
    omega
  | _ => cases hsends

/-- **A request keeps the caps.** -/
theorem Capped.perform (h : db.Capped) (hw : db.Writes w x) : (db.perform w x).Capped := by
  have h' : ({ db with room := x.numbers } : MarkedRoom).Capped := h.room x.numbers
  cases w with
  | changePin _ message pin =>
    have hdue : db.Live message ∧ _ := hw.due
    unfold MarkedRoom.perform
    refine h'.updateMessage (fun hsome => .inr ?_) (fun _ hdeleted => ?_)
      (fun hmem => h.reactions message hmem) fun hmem => h.kinds message hmem
    · cases pin with
      | true => exact hw.fits rfl
      | false => cases hsome
    · exact absurd (hdue.1.2.symm.trans hdeleted) Bool.false_ne_true
  | changeReaction _ message _ add =>
    obtain ⟨hlive, hsome, -⟩ : db.Live message ∧ _ ∧ _ := hw.due
    obtain ⟨rows, hrows⟩ := Option.isSome_iff_exists.mp hsome
    have heq := eq_ite_of_changeReaction hrows
    unfold MarkedRoom.perform
    refine h'.updateMessage (fun hsome => .inl hsome)
      (fun hmem => h.deleted message hmem) (fun hmem => ?_) fun hmem => ?_
    · show List.Nodup (if add then _ else _)
      rw [heq]
      exact nodup_of_changeReaction hrows (h.reactions message hmem)
    · show ReactionRows.countKinds (if add then _ else _) ≤ _
      rw [heq]
      exact countKinds_of_changeReaction hrows (h.kinds message hmem)
  | deleteMessage _ message =>
    have hdelete : ∀ n, (({ db with room := x.numbers } : MarkedRoom).updateMessage message
        fun m => { m with deleted := true, pinned := none, changeSeq := n }).Capped := fun n =>
      h'.updateMessage nofun (fun _ _ => rfl) (h.reactions message) (h.kinds message)
    unfold MarkedRoom.perform
    cases x.root with
    | none => exact hdelete _
    | some root => exact (hdelete _).number root _
  | sendMessage => exact h'.createMessage hw.fits rfl rfl
  | sendThreadReply _ _ _ root =>
    exact (h'.number root _).createMessage hw.fits rfl rfl

/-! ## The marks -/
/-- The pin of a message, none where there is no message. -/
def pin (db : MarkedRoom) (id : Ulid) : Option (Ulid × ℕ) :=
  if id ∈ db.ids then (db.row id).pinned else none

/-- The reactions to a message, none where there is no message. -/
def reactionRows (db : MarkedRoom) (id : Ulid) : ReactionRows :=
  if id ∈ db.ids then (db.row id).reactions else []

/-- **Pins and reactions are as they were.** -/
def SameMarks (db db' : MarkedRoom) : Prop :=
  ∀ id, db'.pin id = db.pin id ∧ db'.reactionRows id = db.reactionRows id

theorem sameMarks_self (db : MarkedRoom) : db.SameMarks db := fun _ => ⟨rfl, rfl⟩

/-- **Who writes for a pin or a reaction changes one.** -/
theorem not_sameMarks_perform (h : db.Writes w x) (hmarked : w.marked.isSome = true) :
    ¬db.SameMarks (db.perform w x) := by
  intro hsame
  cases w with
  | changePin actor message pin now =>
    obtain ⟨⟨hmem, -⟩, hne⟩ : db.Live message ∧ _ := h.due
    have hpin := (hsame message).1
    have hmem' : message ∈ (db.perform (.changePin actor message pin now) x).ids := hmem
    unfold MarkedRoom.pin at hpin
    rw [if_pos hmem, if_pos hmem'] at hpin
    unfold perform at hpin
    rw [row_updateMessage_self] at hpin
    refine hne ?_
    rw [← hpin]
    cases pin <;> rfl
  | changeReaction actor message emoji add =>
    obtain ⟨⟨hmem, -⟩, hsome, hchanges⟩ : db.Live message ∧ _ ∧ _ := h.due
    have hrows := (hsame message).2
    have hmem' : message ∈ (db.perform (.changeReaction actor message emoji add) x).ids := hmem
    unfold reactionRows at hrows
    rw [if_pos hmem, if_pos hmem'] at hrows
    unfold perform at hrows
    rw [row_updateMessage_self] at hrows
    obtain ⟨rows, heq⟩ := Option.isSome_iff_exists.mp hsome
    refine ne_of_changeReaction heq hchanges ?_
    rw [← hrows]
    exact (eq_ite_of_changeReaction heq).symm
  | sendThreadReply =>
    cases hmarked
  | _ => cases hmarked

/-- Of the messages that there are, one that is sent changes a number at most. -/
theorem row_perform_of_sends (h : db.Writes w x) (hsends : w.sends = true) (hid : id ∈ db.ids) :
    (db.perform w x).row id
      = { db.row id with changeSeq := ((db.perform w x).row id).changeSeq } := by
  cases w with
  | sendMessage actor clientMsgId id' =>
    have hfits : id' ∉ db.ids := h.fits
    have hrow : (db.perform (.sendMessage actor clientMsgId id') x).row id = db.row id :=
      row_createMessage_of_mem hfits hid
    rw [hrow]
  | sendThreadReply _ _ id' root =>
    have hfits : id' ∉ db.ids := h.fits
    rw [row_perform_sendThreadReply hfits hid]
    by_cases hr : id = root
    · rw [hr, row_updateMessage_self]
    · rw [row_updateMessage_of_ne _ hr]
  | _ => cases hsends

/-- **A message that is sent changes no mark.** -/
theorem sameMarks_perform (h : db.Writes w x) (hsends : w.sends = true) :
    db.SameMarks (db.perform w x) := by
  intro id
  obtain ⟨hpinned, hreactions, -⟩ := row_perform_subject h hsends
  unfold pin reactionRows
  have hfits : w.subject ∉ db.ids := by
    have hfits := h.fits
    cases w with
    | sendMessage | sendThreadReply =>
      exact hfits
    | _ => cases hsends
  by_cases hid : id = w.subject
  · have hmem : w.subject ∈ (db.perform w x).ids := (mem_ids_perform h).mpr (.inr ⟨hsends, rfl⟩)
    rw [hid, if_pos hmem, if_pos hmem, if_neg hfits, if_neg hfits]
    exact ⟨hpinned, hreactions⟩
  · have hmem : id ∈ (db.perform w x).ids ↔ id ∈ db.ids :=
      (mem_ids_perform h).trans (or_iff_left fun hnew => hid hnew.2)
    simp only [hmem]
    by_cases hold : id ∈ db.ids
    · rw [if_pos hold, if_pos hold, if_pos hold, if_pos hold]
      rw [row_perform_of_sends h hsends hold]
      exact ⟨rfl, rfl⟩
    · rw [if_neg hold, if_neg hold, if_neg hold, if_neg hold]
      exact ⟨rfl, rfl⟩

end MarkedRoom

end Hibari
