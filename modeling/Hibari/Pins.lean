import Hibari.TimeText
import Hibari.Timeline
import Hibari.Register

/-!
# The pinned messages of a room

The list of a room's pins is fetched once and then kept up to date by every
version of a message that arrives, by an event or a difference, in whatever
order and however often. For each message it is a register that keeps the
version of the greatest change number and has no tombstone: an unpinned or
deleted message leaves nothing behind that would tell an old version from a
new one. And it is sorted by the text of the pinning times.

`pins_converge_iff` says when it ends up right: when no stale pin has the last
word, and no two pinned messages have times of which one continues the other.
-/

namespace Hibari

open List

variable {incoming list : List Message} {id : Ulid} {a b e m message : Message}

/-- Whether a version of a message belongs in the list of pins. -/
def isPinned (message : Message) : Bool := message.pinned.isSome && message.deletedAt.isNone

/-- The text of the time a message was pinned at, empty where it is not. -/
def pinnedText (message : Message) : List ℕ :=
  match message.pinned with
  | none => []
  | some pin => pin.at_.text

/-- The order of the list: the latest pin first, and of two at one time the
greater id. -/
def comparePins (a b : Message) : Ordering :=
  (cmp (pinnedText b) (pinnedText a)).then (cmp b.id a.id)

/-- Take one version of a message into the list. -/
def applyPinnedMessage (list : List Message) (message : Message) : List Message :=
  let existing := list.find? (fun m => decide (m.id = message.id))
  if existing.any (fun e => decide (message.changeSeq < e.changeSeq)) then list
  else if !isPinned message && existing.isNone then list
  else if isPinned message then
    (list.filter (fun m => decide (m.id ≠ message.id)) ++ [message]).insertionSort
      (fun a b => comparePins a b ≠ .gt)
  else list.filter (fun m => decide (m.id ≠ message.id))

/-- Correct the list by the versions that arrived, one after the other. -/
def applyPinnedMessages (current incoming : List Message) : List Message :=
  incoming.foldl applyPinnedMessage current

/-- The list of a room, as far as it was fetched. -/
structure PinsState where
  status : LoadStatus
  messages : List Message
  deriving DecidableEq

/-- Take messages into the lists of their rooms, where a room has one. -/
def absorbPins (pins : Ulid → Option PinsState) (messages : List Message) :
    Ulid → Option PinsState := fun roomId =>
  match pins roomId with
  | none => none
  | some current =>
    if current.status ≠ .ready then some current
    else some { current with
      messages := applyPinnedMessages current.messages
        (messages.filter (fun m => decide (m.roomId = roomId))) }

/-- **A room's list is the fold of its own messages**, in however many batches
they arrive. -/
theorem foldl_absorbPins (batches : List (List Message)) {pins : Ulid → Option PinsState}
    {roomId : Ulid} {start : List Message} (hpins : pins roomId = some ⟨.ready, start⟩) :
    batches.foldl absorbPins pins roomId = some ⟨.ready, applyPinnedMessages start
          (batches.flatten.filter (fun m => decide (m.roomId = roomId)))⟩ := by
  induction batches generalizing pins start with
  | nil => exact hpins
  | cons messages _ ih =>
    have hnext : absorbPins pins messages roomId = some ⟨.ready, applyPinnedMessages start
        (messages.filter (fun m => decide (m.roomId = roomId)))⟩ := by
      unfold absorbPins
      rw [hpins]
      rfl
    rw [foldl_cons, ih hnext, flatten_cons, filter_append]
    unfold applyPinnedMessages
    rw [foldl_append]

/-! ## One message of the list -/

/-- The entry of a message in the list. -/
def entryOf (list : List Message) (id : Ulid) : Option Message :=
  list.find? (fun m => decide (m.id = id))

/-- The list has each message once. -/
abbrev OnceEach (list : List Message) : Prop := KeyedList.Distinct (·.id) list

variable (h : OnceEach list)
include h

theorem OnceEach.filter (p : Message → Bool) : OnceEach (list.filter p) :=
  List.Nodup.sublist (filter_sublist.map _) h

/-- The entry of a message is the one of the list that has its id. -/
theorem entryOf_eq_some_iff : entryOf list id = some e ↔ e ∈ list ∧ e.id = id := by
  constructor
  · intro he
    have hid := find?_some he
    exact ⟨mem_of_find?_eq_some he, of_decide_eq_true hid⟩
  · rintro ⟨he, rfl⟩
    cases hfind : entryOf list e.id with
    | none => exact absurd (find?_eq_none.mp hfind e he) (by simp)
    | some =>
      have hid := find?_some hfind
      rw [KeyedList.Distinct.eq_of_mem h (mem_of_find?_eq_some hfind) he (of_decide_eq_true hid)]

omit h

theorem entryOf_eq_none_iff : entryOf list id = none ↔ ∀ e ∈ list, e.id ≠ id := by
  simp [entryOf, find?_eq_none]

/-- The list with a version put in: without the message, then with it, in
order. -/
def withPin (list : List Message) (message : Message) : List Message :=
  (list.filter (fun m => decide (m.id ≠ message.id)) ++ [message]).insertionSort
    (fun a b => comparePins a b ≠ .gt)

/-- The list without a message. -/
def withoutPin (list : List Message) (id : Ulid) : List Message :=
  list.filter (fun m => decide (m.id ≠ id))

/-- What a version does, by the entry that the message has. -/
theorem applyPinnedMessage_eq (list : List Message) (message : Message) :
    applyPinnedMessage list message
      = if (entryOf list message.id).any (fun e => decide (message.changeSeq < e.changeSeq))
          then list
        else if isPinned message then withPin list message
        else withoutPin list message.id := by
  show (if (entryOf list message.id).any (fun e => decide (message.changeSeq < e.changeSeq))
      then list
    else if !isPinned message && (entryOf list message.id).isNone then list
    else if isPinned message then withPin list message
    else withoutPin list message.id) = _
  split
  · rfl
  · by_cases hpin : isPinned message
    · simp [hpin]
    · cases hentry : entryOf list message.id with
      | none =>
        have hne := entryOf_eq_none_iff.mp hentry
        have hwithout : withoutPin list message.id = list :=
          filter_eq_self.mpr fun m hm => decide_eq_true (hne m hm)
        simp [hpin, hwithout]
      | some => simp [hpin]

theorem mem_withPin : e ∈ withPin list message ↔ e ∈ list ∧ e.id ≠ message.id ∨ e = message := by
  unfold withPin
  rw [mem_insertionSort, mem_append, mem_filter, mem_singleton,
    decide_eq_true_iff]

theorem mem_withoutPin : e ∈ withoutPin list id ↔ e ∈ list ∧ e.id ≠ id := by
  unfold withoutPin
  rw [mem_filter, decide_eq_true_iff]

include h

theorem OnceEach.withPin (message : Message) : OnceEach (withPin list message) := by
  have hperm := perm_insertionSort (fun a b => comparePins a b ≠ .gt)
    (list.filter (fun m => decide (m.id ≠ message.id)) ++ [message])
  refine (hperm.map (·.id)).nodup_iff.mpr ?_
  rw [map_append]
  refine List.Nodup.append (h.filter _) (nodup_singleton _) ?_
  intro k hk hsingle
  obtain ⟨m, hm, rfl⟩ := mem_map.mp hk
  have hne : m.id ≠ message.id := of_decide_eq_true (mem_filter.mp hm).2
  exact hne (mem_singleton.mp hsingle)

/-- The list keeps having each message once. -/
theorem OnceEach.applyPinnedMessage
    (message : Message) : OnceEach (applyPinnedMessage list message) := by
  rw [applyPinnedMessage_eq]
  split
  · exact h
  · split
    · exact h.withPin message
    · exact h.filter _

theorem OnceEach.applyPinnedMessages
    (incoming : List Message) : OnceEach (applyPinnedMessages list incoming) := by
  induction incoming generalizing list with
  | nil => exact h
  | cons message _ ih => exact ih (h.applyPinnedMessage message)

/-- **The entry of a message is a register**: a version of it is put into the
register. -/
theorem entryOf_applyPinnedMessage (message : Message) :
    entryOf (applyPinnedMessage list message) message.id
      = Register.put (·.changeSeq) isPinned (entryOf list message.id) message := by
  rw [applyPinnedMessage_eq, Register.put]
  split
  · rfl
  · split
    · exact (entryOf_eq_some_iff (h.withPin message)).mpr ⟨mem_withPin.mpr (.inr rfl), rfl⟩
    · exact entryOf_eq_none_iff.mpr fun e he => (mem_withoutPin.mp he).2

/-- A version of another message leaves the entry alone. -/
theorem entryOf_applyPinnedMessage_of_ne (hid : message.id ≠ id) :
    entryOf (applyPinnedMessage list message) id = entryOf list id := by
  refine Option.ext fun e => ?_
  rw [entryOf_eq_some_iff (h.applyPinnedMessage message), entryOf_eq_some_iff h,
    applyPinnedMessage_eq]
  split
  · exact .rfl
  · split
    · rw [mem_withPin]
      constructor
      · rintro ⟨⟨he, -⟩ | rfl, heid⟩
        · exact ⟨he, heid⟩
        · exact absurd heid hid
      · rintro ⟨he, heid⟩
        exact ⟨.inl ⟨he, fun hc => hid (hc.symm.trans heid)⟩, heid⟩
    · rw [mem_withoutPin]
      constructor
      · rintro ⟨⟨he, -⟩, heid⟩
        exact ⟨he, heid⟩
      · rintro ⟨he, heid⟩
        exact ⟨⟨he, fun hc => hid (hc.symm.trans heid)⟩, heid⟩

omit h

/-- The versions of one message. -/
def versionsOf (id : Ulid) (messages : List Message) : List Message :=
  messages.filter (fun m => decide (m.id = id))

theorem mem_versionsOf {messages : List Message} :
    m ∈ versionsOf id messages ↔ m ∈ messages ∧ m.id = id := by
  unfold versionsOf
  rw [mem_filter, decide_eq_true_iff]

/-- **The entry of a message is the fold of its versions.** -/
theorem entryOf_applyPinnedMessages (id : Ulid) (incoming : List Message) (h : OnceEach list) :
    entryOf (applyPinnedMessages list incoming) id
      = (versionsOf id incoming).foldl (Register.put (·.changeSeq) isPinned) (entryOf list id) := by
  induction incoming generalizing list with
  | nil => rfl
  | cons message incoming ih =>
    have hstep := ih (h.applyPinnedMessage message)
    show entryOf (applyPinnedMessages (applyPinnedMessage list message) incoming) id = _
    rw [hstep]
    by_cases hid : message.id = id
    · subst hid
      rw [entryOf_applyPinnedMessage h]
      simp [versionsOf]
    · rw [entryOf_applyPinnedMessage_of_ne h hid]
      simp [versionsOf, hid]

include h

/-- An entry was in the list or is among the versions that arrived. -/
theorem mem_applyPinnedMessages
    (he : e ∈ applyPinnedMessages list incoming) : e ∈ list ∨ e ∈ incoming := by
  have hentry := (entryOf_eq_some_iff (h.applyPinnedMessages incoming)).mpr ⟨he, rfl⟩
  rw [entryOf_applyPinnedMessages e.id incoming h] at hentry
  rcases Register.foldl_put_eq_some hentry with hstart | ⟨hmem, -⟩
  · exact .inl ((entryOf_eq_some_iff h).mp hstart).1
  · exact .inr (mem_versionsOf.mp hmem).1

/-! ## The order of the list -/

omit h

/-- What the list is sorted by, the greatest first. -/
def pinKey (message : Message) : List ℕ ×ₗ ℕ := toLex (pinnedText message, message.id)

theorem comparePins_ne_gt_iff : comparePins a b ≠ .gt ↔ pinKey b ≤ pinKey a := by
  unfold comparePins pinKey
  rw [Prod.Lex.toLex_le_toLex]
  show _ ↔ pinnedText b < pinnedText a ∨ pinnedText b = pinnedText a ∧ b.id ≤ a.id
  rcases lt_trichotomy (pinnedText b) (pinnedText a) with hlt | heq | hgt
  · have hcmp : cmp (pinnedText b) (pinnedText a) = .lt := by
      unfold cmp cmpUsing
      rw [if_pos hlt]
    rw [hcmp]
    exact iff_of_true Ordering.noConfusion (.inl hlt)
  · have hcmp : cmp (pinnedText b) (pinnedText a) = .eq := by
      unfold cmp cmpUsing
      rw [heq, if_neg (lt_irrefl _), if_neg (lt_irrefl _)]
    rw [hcmp]
    show cmp b.id a.id ≠ .gt ↔ _
    rw [Ne, cmp_eq_gt_iff, not_lt, heq]
    simp
  · have hcmp : cmp (pinnedText b) (pinnedText a) = .gt := by
      unfold cmp cmpUsing
      rw [if_neg hgt.not_gt, if_pos hgt]
    rw [hcmp]
    refine iff_of_false (fun h => h rfl) ?_
    rintro (h | ⟨h, -⟩)
    · exact absurd h hgt.not_gt
    · exact absurd h hgt.ne'

instance : Std.Total fun a b : Message => comparePins a b ≠ .gt where
  total a b := by
    rw [comparePins_ne_gt_iff, comparePins_ne_gt_iff]
    exact le_total _ _

instance : IsTrans Message fun a b => comparePins a b ≠ .gt where
  trans a b c := by
    rw [comparePins_ne_gt_iff, comparePins_ne_gt_iff, comparePins_ne_gt_iff]
    exact fun hab hbc => hbc.trans hab

/-- The list is in the order of `comparePins`. -/
def InPinOrder (list : List Message) : Prop := list.Pairwise fun a b => comparePins a b ≠ .gt

theorem inPinOrder_withPin (list : List Message) (message : Message) :
    InPinOrder (withPin list message) := pairwise_insertionSort _ _

theorem InPinOrder.applyPinnedMessage (h : InPinOrder list)
    (message : Message) : InPinOrder (applyPinnedMessage list message) := by
  rw [applyPinnedMessage_eq]
  split
  · exact h
  · split
    · exact inPinOrder_withPin list message
    · exact List.Pairwise.filter _ h

theorem InPinOrder.applyPinnedMessages (h : InPinOrder list)
    (incoming : List Message) : InPinOrder (applyPinnedMessages list incoming) := by
  induction incoming generalizing list with
  | nil => exact h
  | cons message _ ih => exact ih (h.applyPinnedMessage message)

include h

/-- A pinned version that nothing is newer than puts the list in order, however
it was. -/
theorem inPinOrder_of_newest (hm : m ∈ incoming) (hpin : isPinned m)
    (hnewest : ∀ e, e ∈ list ∨ e ∈ incoming → e.id = m.id → e.changeSeq ≤ m.changeSeq) :
    InPinOrder (applyPinnedMessages list incoming) := by
  obtain ⟨before, after, rfl⟩ := append_of_mem hm
  show InPinOrder ((before ++ m :: after).foldl Hibari.applyPinnedMessage list)
  rw [foldl_append, foldl_cons]
  refine InPinOrder.applyPinnedMessages ?_ after
  show InPinOrder (Hibari.applyPinnedMessage (applyPinnedMessages list before) m)
  rw [applyPinnedMessage_eq, if_neg, if_pos hpin]
  · exact inPinOrder_withPin _ m
  · rw [Option.any_eq_true]
    rintro ⟨e, he, hlt⟩
    obtain ⟨hmem, hid⟩ := (entryOf_eq_some_iff (h.applyPinnedMessages before)).mp he
    have hle : e.changeSeq ≤ m.changeSeq :=
      hnewest e ((mem_applyPinnedMessages h hmem).imp_right (mem_append_left _)) hid
    exact absurd (of_decide_eq_true hlt) (Nat.not_lt.mpr hle)

/-! ## Where the list should end up -/

omit h

/-- One message is before another in the list of pins: it was pinned later, or
at the same time and its id is greater. -/
def PinnedBefore (a b : Message) : Prop :=
  ∀ p ∈ a.pinned, ∀ q ∈ b.pinned, q.at_.seconds < p.at_.seconds ∨
    q.at_.seconds = p.at_.seconds ∧ b.id < a.id

/-- Two messages were pinned at times of one second, the fraction of one
continuing that of the other. -/
def TimesContinue (a b : Message) : Prop :=
  ∃ p ∈ a.pinned, ∃ q ∈ b.pinned, p.at_.Continues q.at_

theorem TimesContinue.symm (h : TimesContinue a b) : TimesContinue b a := by
  obtain ⟨p, hp, q, hq, hpq⟩ := h
  exact ⟨q, hq, p, hp, hpq.symm⟩

theorem pinned_of_isPinned (h : isPinned m) : ∃ p, m.pinned = some p := by
  exact Option.isSome_iff_exists.mp (Bool.and_eq_true_iff.mp h).1

/-- Of two pinned messages in the order of their texts, the first is before the
other unless their times continue one another. -/
theorem pinnedBefore_iff (ha : isPinned a) (hb : isPinned b) (hid : a.id ≠ b.id)
    (horder : comparePins a b ≠ .gt) : PinnedBefore a b ↔ ¬ TimesContinue a b := by
  obtain ⟨p, hp⟩ := pinned_of_isPinned ha
  obtain ⟨q, hq⟩ := pinned_of_isPinned hb
  rw [comparePins_ne_gt_iff, pinKey, pinKey, Prod.Lex.toLex_le_toLex] at horder
  simp only [pinnedText, hp, hq] at horder
  have hcontinue : TimesContinue a b ↔ p.at_.Continues q.at_ := by simp [TimesContinue, hp, hq]
  have hbefore : PinnedBefore a b ↔ q.at_.seconds < p.at_.seconds ∨
      q.at_.seconds = p.at_.seconds ∧ b.id < a.id := by simp [PinnedBefore, hp, hq]
  rw [hcontinue, hbefore]
  by_cases hc : p.at_.Continues q.at_
  · refine iff_of_false ?_ (fun h => h hc)
    have hle : q.at_.text ≤ p.at_.text := horder.elim le_of_lt fun h => h.1.le
    -- the text of the first is the greater, so its fraction is the shorter
    have hlt : p.at_.seconds < q.at_.seconds := by
      rcases hc.2.2 with hfirst | hfirst
      · exact (Timestamp.text_lt_of_continues hc.1 hfirst hc.2.1).2
      · have hlt := (Timestamp.text_lt_of_continues hc.1.symm hfirst hc.2.1.symm).1
        exact absurd hle (not_le.mpr hlt)
    rintro (h | ⟨h, -⟩)
    · exact absurd h hlt.not_gt
    · exact absurd h hlt.ne'
  · refine iff_of_true ?_ hc
    rcases horder with htext | ⟨htext, hle⟩
    · exact .inl ((Timestamp.text_lt_iff fun h => hc h.symm).mp htext)
    · exact .inr ⟨Timestamp.seconds_eq_of_text_eq htext, lt_of_le_of_ne hle hid.symm⟩

include h

/-- **A list in the order of the texts is in the order of the times** exactly
when no two of its times continue one another. -/
theorem pairwise_pinnedBefore_iff (hpin : ∀ m ∈ list, isPinned m) (horder : InPinOrder list) :
    list.Pairwise PinnedBefore ↔ ∀ a ∈ list, ∀ b ∈ list, a.id ≠ b.id → ¬ TimesContinue a b := by
  have hid : list.Pairwise fun a b => a.id ≠ b.id := pairwise_map.mp h
  have hboth := horder.and hid
  constructor
  · intro hbefore a ha b hb hab
    have happart : list.Pairwise fun a b => a.id ≠ b.id → ¬ TimesContinue a b :=
      (hbefore.and hboth).imp_of_mem fun hx hy hxy hne =>
        (pinnedBefore_iff (hpin _ hx) (hpin _ hy) hne hxy.2.1).mp hxy.1
    have hsymm : Std.Symm fun a b : Message => a.id ≠ b.id → ¬ TimesContinue a b :=
      ⟨fun x y hxy hyx hc => hxy hyx.symm hc.symm⟩
    exact happart.forall ha hb (fun hc => hab (hc ▸ rfl)) hab
  · intro happart
    exact hboth.imp_of_mem fun hx hy hxy =>
      (pinnedBefore_iff (hpin _ hx) (hpin _ hy) hxy.2 hxy.1).mpr (happart _ hx _ hy hxy.2)

omit h

/-- The versions that the messages of a room went through: a change makes one
version of one message. -/
def PinHistory (versions : List Message) : Prop :=
  ∀ u ∈ versions, ∀ v ∈ versions, u.changeSeq = v.changeSeq →
    u.id = v.id ∧ u.pinned = v.pinned ∧ u.deletedAt = v.deletedAt

/-- A version that no other of its message is newer than. -/
def Newest (versions : List Message) (m : Message) : Prop :=
  m ∈ versions ∧ ∀ u ∈ versions, u.id = m.id → u.changeSeq ≤ m.changeSeq

/-- **The pins of a history**: of each message that is pinned in its newest
version that version, once, and nothing else, the latest pin first. -/
structure PinsOf (versions list : List Message) : Prop where
  newest : ∀ m ∈ list, Newest versions m ∧ isPinned m
  complete : ∀ m, Newest versions m → isPinned m →
    ∃ e ∈ list, e.id = m.id ∧ e.changeSeq = m.changeSeq
  once : OnceEach list
  sorted : list.Pairwise PinnedBefore

/-- What was fetched and what arrived: versions of the history, the fetched
ones of different messages, and of every message the newest. -/
structure PinDelivery (versions start delivered : List Message) : Prop where
  once : OnceEach start
  start_mem : ∀ m ∈ start, m ∈ versions
  mem : ∀ m ∈ delivered, m ∈ versions
  newest : ∀ m, Newest versions m → ∃ v ∈ delivered, v.id = m.id ∧ v.changeSeq = m.changeSeq

/-- **No stale pin has the last word**: a pinned version of a message that ends
up without a pin is followed by an unpinned or deleted one, at least as new. -/
def NoStalePin (versions delivered : List Message) : Prop :=
  ∀ before u after, delivered = before ++ u :: after → isPinned u →
    (∀ m, Newest versions m → m.id = u.id → isPinned m = false) →
    ∃ w ∈ after, w.id = u.id ∧ isPinned w = false ∧ u.changeSeq ≤ w.changeSeq

/-- No two messages are pinned in the end at times that continue one
another. -/
def TimesApart (versions : List Message) : Prop :=
  ∀ a b, Newest versions a → Newest versions b → isPinned a → isPinned b → a.id ≠ b.id →
    ¬ TimesContinue a b

section Convergence

variable {versions start delivered : List Message} {a b m v : Message}

theorem exists_newest_version (hv : v ∈ versions) : ∃ m, Newest versions m ∧ m.id = v.id := by
  have hne : (versionsOf v.id versions).toFinset.Nonempty :=
    ⟨v, mem_toFinset.mpr (mem_versionsOf.mpr ⟨hv, rfl⟩)⟩
  obtain ⟨m, hm, hmax⟩ := Finset.exists_max_image _ (·.changeSeq) hne
  obtain ⟨hmem, hid⟩ := mem_versionsOf.mp (mem_toFinset.mp hm)
  refine ⟨m, ⟨hmem, fun u hu huid => ?_⟩, hid⟩
  exact hmax u (mem_toFinset.mpr (mem_versionsOf.mpr ⟨hu, huid.trans hid⟩))

theorem PinHistory.isPinned_eq (h : PinHistory versions) {u : Message} (hu : u ∈ versions)
    (hv : v ∈ versions) (hseq : u.changeSeq = v.changeSeq) : isPinned u = isPinned v := by
  obtain ⟨-, hpinned, hdeleted⟩ := h u hu v hv hseq
  unfold isPinned
  rw [hpinned, hdeleted]

theorem Newest.changeSeq_eq (ha : Newest versions a) (hb : Newest versions b)
    (hid : a.id = b.id) : a.changeSeq = b.changeSeq :=
  le_antisymm (hb.2 a ha.1 hid) (ha.2 b hb.1 hid.symm)

theorem Newest.copy (ha : Newest versions a) (hb : b ∈ versions)
    (hid : b.id = a.id) (hseq : b.changeSeq = a.changeSeq) : Newest versions b :=
  ⟨hb, fun u hu huid => hseq ▸ ha.2 u hu (huid.trans hid)⟩

variable (hdel : PinDelivery versions start delivered)
include hdel

theorem PinDelivery.mem_result {e : Message}
    (he : e ∈ applyPinnedMessages start delivered) : e ∈ versions :=
  (mem_applyPinnedMessages hdel.once he).elim (hdel.start_mem e) (hdel.mem e)

omit hdel

variable (hhist : PinHistory versions)
include hhist

include hdel

/-- **A message that ends up pinned is in the list**, in its newest version. -/
theorem PinDelivery.entry_of_pinned (hm : Newest versions m)
    (hpin : isPinned m) : ∃ e, entryOf (applyPinnedMessages start delivered) m.id = some e
      ∧ e.changeSeq = m.changeSeq := by
  obtain ⟨v, hv, hid, hseq⟩ := hdel.newest m hm
  rw [entryOf_applyPinnedMessages m.id delivered hdel.once]
  refine Register.rank_foldl_put (v := v) (fun u hu => ?_) (fun e he => ?_)
    (mem_versionsOf.mpr ⟨hv, hid⟩) hseq
  · obtain ⟨hu, huid⟩ := mem_versionsOf.mp hu
    refine ⟨hm.2 u (hdel.mem u hu) huid, fun heq => ?_⟩
    rw [hhist.isPinned_eq (hdel.mem u hu) hm.1 heq]
    exact hpin
  · obtain ⟨he, heid⟩ := (entryOf_eq_some_iff hdel.once).mp he
    exact hm.2 e (hdel.start_mem e he) heid

/-- **A message that ends up without a pin is not in the list** exactly when
each of its pinned versions was retracted. -/
theorem PinDelivery.entry_eq_none_iff (hm : Newest versions m) (hpin : isPinned m = false) :
    entryOf (applyPinnedMessages start delivered) m.id = none ↔
      ∀ before u after, delivered = before ++ u :: after → u.id = m.id → isPinned u →
        ∃ w ∈ after, w.id = m.id ∧ isPinned w = false ∧ u.changeSeq ≤ w.changeSeq := by
  rw [entryOf_applyPinnedMessages m.id delivered hdel.once, Register.foldl_put_eq_none_iff]
  constructor
  · rintro ⟨-, hsplit⟩ before u after hdelivered hid hu
    have hversions : versionsOf m.id delivered
        = versionsOf m.id before ++ u :: versionsOf m.id after := by
      rw [hdelivered]
      simp [versionsOf, hid]
    obtain ⟨w, hw, hnot, hle⟩ := hsplit _ u _ hversions hu
    obtain ⟨hw, hwid⟩ := mem_versionsOf.mp hw
    exact ⟨w, hw, hwid, hnot, hle⟩
  · intro hsplit
    constructor
    · intro e he
      obtain ⟨he, heid⟩ := (entryOf_eq_some_iff hdel.once).mp he
      obtain ⟨v, hv, hvid, hseq⟩ := hdel.newest m hm
      refine ⟨v, mem_versionsOf.mpr ⟨hv, hvid⟩, ?_, ?_⟩
      · rw [hhist.isPinned_eq (hdel.mem v hv) hm.1 hseq]
        exact hpin
      · exact (hm.2 e (hdel.start_mem e he) heid).trans hseq.ge
    · intro before u after hversions hu
      obtain ⟨l₁, l₂, rfl, -, hl₂⟩ := filter_eq_append_iff.mp hversions
      obtain ⟨l₃, l₄, rfl, -, hid, hl₄⟩ := filter_eq_cons_iff.mp hl₂
      obtain ⟨w, hw, hwid, hnot, hle⟩ := hsplit (l₁ ++ l₃) u l₄ (by rw [append_assoc])
        (of_decide_eq_true hid) hu
      exact ⟨w, hl₄ ▸ mem_versionsOf.mpr ⟨hw, hwid⟩, hnot, hle⟩

/-- The list has nothing but newest versions exactly when no stale pin has the
last word. -/
theorem PinDelivery.newest_iff :
    (∀ m ∈ applyPinnedMessages start delivered, Newest versions m ∧ isPinned m)
      ↔ NoStalePin versions delivered := by
  have honce := hdel.once.applyPinnedMessages delivered
  constructor
  · intro hnewest before u after hdelivered hu hunpinned
    have humem : u ∈ delivered :=
      hdelivered ▸ mem_append_right _ (.head _)
    obtain ⟨m, hm, hid⟩ := exists_newest_version (hdel.mem u humem)
    have hnone : entryOf (applyPinnedMessages start delivered) m.id = none := by
      refine entryOf_eq_none_iff.mpr fun e he heid => ?_
      have hfalse := hunpinned e (hnewest e he).1 (heid.trans hid)
      exact absurd (hnewest e he).2 (by rw [hfalse]; exact Bool.false_ne_true)
    rw [← hid]
    exact (hdel.entry_eq_none_iff hhist hm (hunpinned m hm hid)).mp hnone before u after
      hdelivered hid.symm hu
  · intro hstale e he
    obtain ⟨m, hm, hid⟩ := exists_newest_version (hdel.mem_result he)
    by_cases hpin : isPinned m
    · obtain ⟨e', he', hseq⟩ := hdel.entry_of_pinned hhist hm hpin
      obtain ⟨hmem, heid⟩ := (entryOf_eq_some_iff honce).mp he'
      obtain rfl := KeyedList.Distinct.eq_of_mem honce he hmem (hid.symm.trans heid.symm)
      refine ⟨hm.copy (hdel.mem_result he) hid.symm hseq, ?_⟩
      rw [hhist.isPinned_eq (hdel.mem_result he) hm.1 hseq]
      exact hpin
    · have hfalse := Bool.eq_false_iff.mpr hpin
      have hnone := (hdel.entry_eq_none_iff hhist hm hfalse).mpr
        fun before u after hdelivered huid hu => by
          have hunpinned : ∀ n, Newest versions n → n.id = u.id → isPinned n = false := by
            intro n hn hnid
            rw [hhist.isPinned_eq hn.1 hm.1 (hn.changeSeq_eq hm (hnid.trans huid))]
            exact hfalse
          exact huid ▸ hstale before u after hdelivered hu hunpinned
      exact absurd hid.symm (entryOf_eq_none_iff.mp hnone e he)

/-- **The list converges on the pins of the history exactly when** no stale
pin has the last word and no two pinning times continue one another. -/
theorem PinDelivery.pinsOf_iff : PinsOf versions (applyPinnedMessages start delivered)
      ↔ NoStalePin versions delivered ∧ TimesApart versions := by
  have honce := hdel.once.applyPinnedMessages delivered
  have hcomplete : ∀ m, Newest versions m → isPinned m →
      ∃ e ∈ applyPinnedMessages start delivered, e.id = m.id ∧ e.changeSeq = m.changeSeq := by
    intro m hm hpin
    obtain ⟨e, he, hseq⟩ := hdel.entry_of_pinned hhist hm hpin
    obtain ⟨hmem, hid⟩ := (entryOf_eq_some_iff honce).mp he
    exact ⟨e, hmem, hid, hseq⟩
  -- a message that ends up pinned has put the list in order when it arrived
  have horder : ∀ m, Newest versions m → isPinned m →
      InPinOrder (applyPinnedMessages start delivered) := by
    intro m hm hpin
    obtain ⟨v, hv, hid, hseq⟩ := hdel.newest m hm
    refine inPinOrder_of_newest hdel.once hv ?_ fun e he heid => ?_
    · rw [hhist.isPinned_eq (hdel.mem v hv) hm.1 hseq]
      exact hpin
    · exact hseq ▸ hm.2 e (he.elim (hdel.start_mem e) (hdel.mem e)) (heid.trans hid)
  have hcopy : ∀ {m e : Message}, Newest versions m → e ∈ versions →
      e.changeSeq = m.changeSeq → e.pinned = m.pinned :=
    fun hm he hseq => (hhist _ he _ hm.1 hseq).2.1
  constructor
  · intro h
    refine ⟨(hdel.newest_iff hhist).mp h.newest, ?_⟩
    intro a b ha hb hapin hbpin hab hcontinue
    obtain ⟨a', ha', haid, haseq⟩ := hcomplete a ha hapin
    obtain ⟨b', hb', hbid, hbseq⟩ := hcomplete b hb hbpin
    have happart := (pairwise_pinnedBefore_iff honce (fun m hm => (h.newest m hm).2)
      (horder a ha hapin)).mp h.sorted a' ha' b' hb' (by rw [haid, hbid]; exact hab)
    refine happart ?_
    unfold TimesContinue at hcontinue ⊢
    rw [hcopy ha (hdel.mem_result ha') haseq, hcopy hb (hdel.mem_result hb') hbseq]
    exact hcontinue
  · rintro ⟨hstale, happart⟩
    have hnewest := (hdel.newest_iff hhist).mpr hstale
    refine ⟨hnewest, hcomplete, honce, ?_⟩
    cases hlist : applyPinnedMessages start delivered with
    | nil => exact List.Pairwise.nil
    | cons m =>
      have hm := hnewest m (hlist ▸ (.head _))
      rw [← hlist]
      refine (pairwise_pinnedBefore_iff honce (fun m hm => (hnewest m hm).2)
        (horder m hm.1 hm.2)).mpr ?_
      intro a ha b hb hab
      exact happart a b (hnewest a ha).1 (hnewest b hb).1 (hnewest a ha).2 (hnewest b hb).2 hab

/-- **Versions that arrive in the order of their changes leave no stale
pin.** -/
theorem PinDelivery.noStalePin_of_sorted
    (hsorted : delivered.Pairwise fun u v => u.changeSeq ≤ v.changeSeq) :
    NoStalePin versions delivered := by
  intro before u after hdelivered hu hunpinned
  have humem : u ∈ versions :=
    hdel.mem u (hdelivered ▸ mem_append_right _ (.head _))
  obtain ⟨m, hm, hid⟩ := exists_newest_version humem
  obtain ⟨v, hv, hvid, hseq⟩ := hdel.newest m hm
  have hvpin : isPinned v = false := by
    rw [hhist.isPinned_eq (hdel.mem v hv) hm.1 hseq]
    exact hunpinned m hm hid
  have hlt : u.changeSeq < v.changeSeq := by
    refine lt_of_le_of_ne ((hm.2 u humem hid.symm).trans hseq.ge) fun hc => ?_
    rw [hhist.isPinned_eq humem (hdel.mem v hv) hc, hvpin] at hu
    exact Bool.false_ne_true hu
  refine ⟨v, ?_, hvid.trans hid, hvpin, hlt.le⟩
  rw [hdelivered] at hv hsorted
  rcases mem_append.mp hv with hbefore | hrest
  · have hle := (pairwise_append.mp hsorted).2.2 v hbefore u (.head _)
    exact absurd hlt (Nat.not_lt.mpr hle)
  · rcases mem_cons.mp hrest with rfl | hafter
    · exact absurd hlt (lt_irrefl _)
    · exact hafter

end Convergence

/-- What arrived for a room, of everything in the batches. -/
def messagesOf (roomId : Ulid) (batches : List (List Message)) : List Message :=
  batches.flatten.filter (fun m => decide (m.roomId = roomId))

/-- **The pins of a room converge exactly when** no stale pin has the last word
and no two pinning times continue one another – whatever was fetched, in
whatever order and batches the versions arrive, and whatever arrives for other
rooms. -/
theorem pins_converge_iff {versions start : List Message} {batches : List (List Message)}
    {pins : Ulid → Option PinsState} {roomId : Ulid} (hhist : PinHistory versions)
    (hpins : pins roomId = some ⟨.ready, start⟩)
    (hdel : PinDelivery versions start (messagesOf roomId batches)) :
    (∃ list, batches.foldl absorbPins pins roomId = some ⟨.ready, list⟩ ∧ PinsOf versions list)
      ↔ NoStalePin versions (messagesOf roomId batches) ∧ TimesApart versions := by
  rw [← hdel.pinsOf_iff hhist]
  have hfold := foldl_absorbPins batches hpins
  constructor
  · rintro ⟨list, hlist, hpinsOf⟩
    have heq : applyPinnedMessages start (messagesOf roomId batches) = list :=
      congrArg PinsState.messages (Option.some.inj (hfold.symm.trans hlist))
    rw [heq]
    exact hpinsOf
  · exact fun h => ⟨_, hfold, h⟩

/-- A version of a message, pinned on a whole second. -/
def pinnedMessage (n changeSeq second : ℕ) : Message :=
  { Message.said 7 n changeSeq with
    pinned := some ⟨⟨7, "sora", "Sora"⟩, ⟨second, [], Timestamp.trimmed_nil⟩⟩ }

/-- A version of a message, deleted. -/
def deletedMessage (n changeSeq : ℕ) : Message :=
  { Message.said 7 n changeSeq with deletedAt := some "2026-01-01T00:00:00Z" }

/-- The list of room 0 was fetched and is empty. -/
def noPins : Ulid → Option PinsState := fun roomId =>
  if roomId = 0 then some ⟨.ready, []⟩ else none

/-- Two messages are pinned and one of them is deleted, and one version arrives
twice: the other is left. -/
theorem pins_converge_deleted :
    ∃ list, [[pinnedMessage 1 1 10, pinnedMessage 1 1 10], [pinnedMessage 2 2 20,
        deletedMessage 1 3]].foldl absorbPins noPins 0 = some ⟨.ready, list⟩
      ∧ PinsOf [pinnedMessage 1 1 10, pinnedMessage 2 2 20, deletedMessage 1 3] list := by
  have hhist : PinHistory [pinnedMessage 1 1 10, pinnedMessage 2 2 20, deletedMessage 1 3] := by
    unfold PinHistory
    decide
  have hdel : PinDelivery [pinnedMessage 1 1 10, pinnedMessage 2 2 20, deletedMessage 1 3] []
      (messagesOf 0 [[pinnedMessage 1 1 10, pinnedMessage 1 1 10],
        [pinnedMessage 2 2 20, deletedMessage 1 3]]) := by
    refine ⟨KeyedList.distinct_nil, by decide, by decide, fun m hm => ⟨m, ?_, rfl, rfl⟩⟩
    have hsubset : ∀ v ∈ [pinnedMessage 1 1 10, pinnedMessage 2 2 20, deletedMessage 1 3],
        v ∈ messagesOf 0 [[pinnedMessage 1 1 10, pinnedMessage 1 1 10],
          [pinnedMessage 2 2 20, deletedMessage 1 3]] := by decide
    exact hsubset m hm.1
  refine (pins_converge_iff hhist rfl hdel).mpr ⟨hdel.noStalePin_of_sorted hhist (by decide), ?_⟩
  rintro a b ⟨ha, -⟩ ⟨hb, -⟩ - - - ⟨p, hp, q, hq, hpq⟩
  have hwhole : ∀ v ∈ [pinnedMessage 1 1 10, pinnedMessage 2 2 20, deletedMessage 1 3],
      ∀ p ∈ v.pinned, p.at_.fraction = [] := by decide
  exact hpq.2.1 ((hwhole a ha p hp).trans (hwhole b hb q hq).symm)

/-- **An unpinned message comes back.** A message was pinned and unpinned; the
first version arrives once more after the second, and the message is left in
the list. -/
theorem unpinned_comes_back : ∃ (versions : List Message) (batches : List (List Message)),
      PinHistory versions ∧ PinDelivery versions [] (messagesOf 0 batches) ∧
        batches.foldl absorbPins noPins 0 = some ⟨.ready, [pinnedMessage 1 1 10]⟩ ∧
        ¬ PinsOf versions [pinnedMessage 1 1 10] := by
  refine ⟨[pinnedMessage 1 1 10, .said 7 1 2], [[.said 7 1 2], [pinnedMessage 1 1 10]],
    by unfold PinHistory; decide, ⟨KeyedList.distinct_nil, by decide, by decide, ?_⟩, ?_, ?_⟩
  · intro m hm
    have hsubset : ∀ v ∈ [pinnedMessage 1 1 10, .said 7 1 2],
        v ∈ messagesOf 0 [[.said 7 1 2], [pinnedMessage 1 1 10]] := by decide
    exact ⟨m, hsubset m hm.1, rfl, rfl⟩
  · decide
  · intro h
    have hnewest := (h.newest _ (.head _)).1.2 (.said 7 1 2) (by decide) rfl
    exact nomatch hnewest

end Hibari
