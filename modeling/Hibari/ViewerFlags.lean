import Hibari.CarryOver
import Hibari.Pins
import Hibari.ThreadPages

/-!
# The viewer's own flags

A frame goes to every subscriber alike, so it says neither who of them reacted nor who saved the
message. Where a client puts a version from a frame in the place of one that it holds, it has to
carry these over. The timeline does so (`mergeMessages`). The replies of a thread pane, the root of
the pane and the list of pins keep the same version, and everything about it that is for everybody
(`map_shared_mergeReplies`), but they forget what the frame leaves out.

So they show what the timeline shows exactly where there is nothing to carry over
(`flags_kept_iff`): where the version that is shown says of all its reactions if they are the
viewer's, and says if it is saved, or none said so that was shown before.
-/

namespace Hibari

open List Option KeyedList

open Register

variable {resolve : Message → Message → Message} {list : List Message}

/-! ## What is carried over -/

/-- A version with what it leaves out from the one before it. -/
def carryFlags (existing message : Message) : Message :=
  { message with
    reactions := keepMyReactions existing.reactions message.reactions
    saved := if message.saved.isNone then existing.saved else message.saved }

/-- A message as everybody sees it. -/
def Message.shared (m : Message) : Message :=
  { m with reactions := m.reactions.map fun r => { r with me := none }, saved := none }

/-- **Nothing is left out** along a trail: the last version says of its reactions if they are the
viewer's, and if it is saved, unless no version said so. -/
def SaysAll : List Message → Prop
  | m :: e :: before => (∀ r ∈ m.reactions, r.me.isSome) ∧
      (m.saved.isSome ∨ ∀ v ∈ e :: before, v.saved.isNone)
  | _ => True

instance (kept : List Message) : Decidable (SaysAll kept) := by
  unfold SaysAll
  split <;> infer_instance

theorem keepMyReactions_eq_iff (previous incoming : List MessageReaction) :
    keepMyReactions previous incoming = incoming ↔ ∀ r ∈ incoming, r.me.isSome := by
  unfold keepMyReactions
  by_cases hall : incoming.all (fun r => r.me.isSome) = true
  · rw [if_pos hall]
    exact iff_of_true rfl (List.all_eq_true.mp hall)
  · rw [if_neg hall]
    refine iff_of_false (fun heq => hall (List.all_eq_true.mpr fun r hr => ?_)) fun h =>
      hall (List.all_eq_true.mpr h)
    obtain ⟨r', -, rfl⟩ := List.mem_map.mp (heq ▸ hr)
    by_cases hr' : r'.me.isNone
    · rw [if_pos hr']
      rfl
    · rw [if_neg hr']
      exact isSome_iff_ne_none.mpr fun hnone => hr' (by rw [hnone]; rfl)

theorem carryFlags_eq_iff (existing message : Message) : carryFlags existing message = message ↔
      (∀ r ∈ message.reactions, r.me.isSome) ∧ (message.saved.isSome ∨ existing.saved.isNone) := by
  rw [← keepMyReactions_eq_iff existing.reactions]
  constructor
  · intro heq
    have hreactions : keepMyReactions existing.reactions message.reactions = message.reactions :=
      congrArg Message.reactions heq
    have hsaved : (if message.saved.isNone then existing.saved else message.saved)
        = message.saved := congrArg Message.saved heq
    refine ⟨hreactions, ?_⟩
    cases hm : message.saved with
    | some => exact .inl rfl
    | none =>
      rw [hm] at hsaved
      exact .inr (by rw [show existing.saved = none from hsaved]; rfl)
  · rintro ⟨hreactions, hsaved⟩
    have hkept : (if message.saved.isNone then existing.saved else message.saved)
        = message.saved := by
      cases hm : message.saved with
      | some => rfl
      | none =>
        rw [hm] at hsaved
        simpa using hsaved
    show { message with reactions := _, saved := _ } = message
    rw [hreactions, hkept]

/-- What has been carried along a trail says if the message is saved, if a version did. -/
theorem saved_carried (kept : List Message) :
    ((carried carryFlags kept).all fun m => m.saved.isNone) = kept.all fun v => v.saved.isNone := by
  induction kept with
  | nil => rfl
  | cons m before ih =>
    rw [all_cons, ← ih, carried]
    cases hc : carried carryFlags before with
    | none => simp
    | some e =>
      show ((carryFlags e m).saved.isNone) = (m.saved.isNone && e.saved.isNone)
      unfold carryFlags
      cases hm : m.saved <;> simp

/-- **What is carried over is nothing** exactly where nothing is left out. -/
theorem carried_eq_head?_iff (kept : List Message) :
    carried carryFlags kept = kept.head? ↔ SaysAll kept := by
  match kept with
  | [] => exact iff_of_true rfl trivial
  | [m] => exact iff_of_true rfl trivial
  | m :: e :: before =>
    have hsaved := saved_carried (e :: before)
    obtain ⟨c, hc⟩ : ∃ c, carried carryFlags (e :: before) = some c := ⟨_, rfl⟩
    rw [hc] at hsaved
    show some ((carried carryFlags (e :: before)).elim m (carryFlags · m)) = some m ↔ _
    rw [hc, some_inj]
    show carryFlags c m = m ↔ _
    rw [carryFlags_eq_iff]
    have hnone : c.saved.isNone ↔ ∀ v ∈ e :: before, v.saved.isNone := by
      rw [← List.all_eq_true, ← hsaved]
      rfl
    rw [hnone]
    rfl

/-! ## Replies -/

/-- The versions of a message that a merge of replies takes in, after the one that is held. -/
def replyTrail (current incoming : List Message) (id : Ulid) : List Message :=
  (versionsOf id incoming).foldl (trail Message.changeSeq fun _ => true)
    (versionsOf id current).getLast?.toList

/-- The replies by their ids, before they are sorted. -/
def mergedById (resolve : Message → Message → Message) (current incoming : List Message) :
    List Message :=
  incoming.foldl (KeyedList.upsert Message.id resolve)
    (current.foldl (KeyedList.upsert Message.id fun _ m => m) [])

theorem newerReply_shared (x y a : Message) (h : x.shared = y.shared) :
    (newerReply x a).shared = (absorb y a).shared := by
  have hseq : x.changeSeq = y.changeSeq :=
    show x.shared.changeSeq = y.shared.changeSeq from congrArg Message.changeSeq h
  unfold newerReply absorb
  by_cases hlt : a.changeSeq < y.changeSeq
  · rw [if_neg (by omega), if_pos hlt]
    exact h
  · rw [if_pos (by omega), if_neg hlt]
    have hreactions : ∀ previous incoming : List MessageReaction,
        (keepMyReactions previous incoming).map (fun r => { r with me := none })
          = incoming.map fun r => { r with me := none } := by
      intro previous incoming
      unfold keepMyReactions
      split
      · rfl
      · rw [List.map_map]
        refine map_congr_left fun r _ => ?_
        show { (if r.me.isNone then _ else r) with me := none } = _
        split <;> rfl
    show { a with reactions := _, saved := _ } = { a with reactions := _, saved := _ }
    rw [hreactions]

theorem id_of_shared {x y : Message} (h : x.shared = y.shared) : x.id = y.id :=
  show x.shared.id = y.shared.id from congrArg Message.id h

theorem map_shared_mergedById (current incoming : List Message) :
    (mergedById newerReply current incoming).map Message.shared
      = (mergedById absorb current incoming).map Message.shared :=
  map_foldl_upsert_congr (fun _ _ => id_of_shared) newerReply_shared incoming rfl

/-- **What is for everybody is merged like in the timeline.** -/
theorem map_shared_mergeReplies (current incoming : List Message) :
    (mergeReplies current incoming).map Message.shared
      = (mergeMessages current incoming).map Message.shared := by
  have hsort : ∀ messages : List Message, (sortBySeq messages).map Message.shared
      = sortBySeq (messages.map Message.shared) :=
    fun messages => map_insertionSort _ _ Message.shared messages fun _ _ _ _ => .rfl
  show (sortBySeq (mergedById newerReply current incoming)).map _
    = (sortBySeq (mergedById absorb current incoming)).map _
  rw [hsort, hsort, map_shared_mergedById]

variable (hres : ∀ x a, x.id = a.id → (resolve x a).id = a.id)
include hres

theorem onceEach_mergedById (current incoming : List Message) :
    OnceEach (mergedById resolve current incoming) :=
  (distinct_nil.foldl_upsert (fun _ _ _ => rfl) current).foldl_upsert hres incoming

/-- The version of a message after a merge. -/
theorem entryOf_mergedById (current incoming : List Message) (id : Ulid) :
    entryOf (mergedById resolve current incoming) id
      = (versionsOf id incoming).foldl (fun e a => some (e.elim a (resolve · a)))
          (versionsOf id current).getLast? := by
  have hheld : ∀ (l : List Message) (e : Option Message),
      l.foldl (fun e a => some (e.elim a fun _ => a)) e = (e.toList ++ l).getLast? := by
    intro l
    induction l with
    | nil => intro e; cases e <;> rfl
    | cons _ _ ih =>
      intro e
      rw [foldl_cons, ih]
      cases e <;> simp
  unfold entryOf mergedById
  rw [find?_foldl_upsert hres, find?_foldl_upsert fun _ _ _ => rfl]
  exact congrArg (fun e => (versionsOf id incoming).foldl _ e) (hheld (versionsOf id current) none)

omit hres

theorem foldl_newerReply (vs : List Message) (e : Option Message) :
    vs.foldl (fun e a => some (e.elim a (newerReply · a))) e
      = vs.foldl (put Message.changeSeq fun _ => true) e := by
  refine foldl_ext _ _ e fun e a _ => ?_
  cases e with
  | none => rfl
  | some x =>
    unfold put newerReply
    by_cases hlt : a.changeSeq < x.changeSeq
    · simp [hlt, Nat.not_le.mpr hlt]
    · simp [hlt, Nat.not_lt.mp hlt]

theorem foldl_absorb (vs : List Message) (e : Option Message) :
    vs.foldl (fun e a => some (e.elim a (absorb · a))) e
      = vs.foldl (putWith Message.changeSeq (fun _ => true) carryFlags) e := by
  refine foldl_ext _ _ e fun e a _ => ?_
  cases e with
  | none => rfl
  | some x =>
    unfold putWith absorb carryFlags
    by_cases hlt : a.changeSeq < x.changeSeq
    · simp [hlt]
    · simp [hlt]

/-- A register with and without carrying over, from what is held. -/
theorem foldl_put_eq_putWith_iff (keep : Message → Bool) (vs : List Message) (e : Option Message) :
    vs.foldl (put Message.changeSeq keep) e
        = vs.foldl (putWith Message.changeSeq keep carryFlags) e ↔
      SaysAll (vs.foldl (trail Message.changeSeq keep) e.toList) := by
  have hhead : e = e.toList.head? := by cases e <;> rfl
  have hcarried : e = carried carryFlags e.toList := by cases e <;> rfl
  have hplain : vs.foldl (put Message.changeSeq keep) e.toList.head?
      = (vs.foldl (trail Message.changeSeq keep) e.toList).head? := foldl_put_head? vs e.toList
  have hcarry : vs.foldl (putWith Message.changeSeq keep carryFlags) (carried carryFlags e.toList)
      = carried carryFlags (vs.foldl (trail Message.changeSeq keep) e.toList) :=
    foldl_putWith_carried (fun e v => (rfl : (carryFlags e v).changeSeq = v.changeSeq)) vs e.toList
  rw [← hhead] at hplain
  rw [← hcarried] at hcarry
  rw [hplain, hcarry, ← carried_eq_head?_iff]
  exact eq_comm

/-- **Replies are merged like in the timeline** exactly where nothing is left out. -/
theorem mergeReplies_eq_iff (current incoming : List Message) :
    mergeReplies current incoming = mergeMessages current incoming ↔
      ∀ id, SaysAll (replyTrail current incoming id) := by
  have hplain := onceEach_mergedById (fun _ _ => newerReply_id) current incoming
  have hcarry := onceEach_mergedById (fun _ _ => absorb_id) current incoming
  have hentries : (∀ id, entryOf (mergedById newerReply current incoming) id
      = entryOf (mergedById absorb current incoming) id) ↔
        ∀ id, SaysAll (replyTrail current incoming id) := by
    refine forall_congr' fun id => ?_
    rw [entryOf_mergedById (fun _ _ => newerReply_id), entryOf_mergedById (fun _ _ => absorb_id),
      foldl_newerReply, foldl_absorb, foldl_put_eq_putWith_iff]
    rfl
  rw [← hentries]
  show sortBySeq (mergedById newerReply current incoming)
    = sortBySeq (mergedById absorb current incoming) ↔ _
  constructor
  · intro heq id
    refine ext fun e => ?_
    rw [entryOf_eq_some_iff hplain, entryOf_eq_some_iff hcarry, ← mem_sortBySeq, heq, mem_sortBySeq]
  · intro hall
    have hids : (mergedById newerReply current incoming).map Message.id
        = (mergedById absorb current incoming).map Message.id := by
      have hshared := congrArg (List.map Message.id) (map_shared_mergedById current incoming)
      rw [List.map_map, List.map_map] at hshared
      exact hshared
    refine congrArg sortBySeq (eq_of_entries hids fun x hx y hy hid => ?_)
    have hentry := (entryOf_eq_some_iff hplain).mpr ⟨hx, rfl⟩
    rw [hall x.id] at hentry
    have hy' := (entryOf_eq_some_iff hcarry).mpr ⟨hy, hid.symm⟩
    exact some.inj (hentry.symm.trans hy')

/-! ## The root of a pane, and pins -/

/-- Take a version into the root of a pane: an older one than what is held is dropped
(`absorbThreadMessages`). -/
def absorbRoot (rootId : Ulid) (root : Option Message) (message : Message) : Option Message :=
  if message.id ≠ rootId then root
  else if root.any (fun r => decide (r.changeSeq > message.changeSeq)) then root
  else some message

/-- The root by the rule of the timeline. -/
def mergeRoot (rootId : Ulid) (root : Option Message) (message : Message) : Option Message :=
  if message.id ≠ rootId then root else some (root.elim message (absorb · message))

theorem foldl_absorbRoot (rootId : Ulid) (messages : List Message) (root : Option Message) :
    messages.foldl (absorbRoot rootId) root
      = (versionsOf rootId messages).foldl (put Message.changeSeq fun _ => true) root := by
  induction messages generalizing root with
  | nil => rfl
  | cons m _ ih =>
    rw [foldl_cons, ih]
    by_cases hm : m.id = rootId
    · simp [versionsOf, hm, absorbRoot, put]
    · simp [versionsOf, hm, absorbRoot]

theorem foldl_mergeRoot (rootId : Ulid) (messages : List Message) (root : Option Message) :
    messages.foldl (mergeRoot rootId) root = (versionsOf rootId messages).foldl
          (putWith Message.changeSeq (fun _ => true) carryFlags) root := by
  rw [← foldl_absorb]
  induction messages generalizing root with
  | nil => rfl
  | cons m _ ih =>
    rw [foldl_cons, ih]
    by_cases hm : m.id = rootId
    · simp [versionsOf, hm, mergeRoot]
    · simp [versionsOf, hm, mergeRoot]

/-- Take one version into the list of pins, with what it leaves out from the one it replaces. -/
def mergePinned (list : List Message) (message : Message) : List Message :=
  applyPinnedMessage list ((entryOf list message.id).elim message (carryFlags · message))

theorem OnceEach.mergePinned (h : OnceEach list) (message : Message) :
    OnceEach (mergePinned list message) :=
  h.applyPinnedMessage _

theorem entryOf_foldl_mergePinned (id : Ulid) (incoming : List Message) (h : OnceEach list) :
    entryOf (incoming.foldl mergePinned list) id
      = (versionsOf id incoming).foldl (putWith Message.changeSeq isPinned carryFlags)
          (entryOf list id) := by
  induction incoming generalizing list with
  | nil => rfl
  | cons message _ ih =>
    rw [foldl_cons, ih (h.mergePinned message)]
    obtain ⟨message', hmessage', hid', hseq, hpin⟩ : ∃ m',
        (entryOf list message.id).elim message (carryFlags · message) = m' ∧ m'.id = message.id ∧
          m'.changeSeq = message.changeSeq ∧ isPinned m' = isPinned message := by
      refine ⟨_, rfl, ?_⟩
      cases entryOf list message.id <;> exact ⟨rfl, rfl, rfl⟩
    by_cases hid : message.id = id
    · have hstep : entryOf (mergePinned list message) id
          = putWith Message.changeSeq isPinned carryFlags (entryOf list id) message := by
        unfold mergePinned
        rw [hmessage', ← hid, ← hid', entryOf_applyPinnedMessage h]
        unfold put putWith
        simp only [hid', hseq, hpin, hmessage']
      rw [hstep]
      simp [versionsOf, hid]
    · have hstep : entryOf (mergePinned list message) id = entryOf list id := by
        unfold mergePinned
        rw [hmessage']
        exact entryOf_applyPinnedMessage_of_ne h (hid' ▸ hid)
      rw [hstep]
      simp [versionsOf, hid]

/-- **Replies, roots and pins show what the timeline shows** exactly where nothing is left out.
Whatever comes in, replies have the messages of the timeline's merge in its order, and of each the
same version; the viewer's flags are the timeline's exactly where the version that is shown says
all of them, or nothing that was shown before says more. So it is for the root of a pane, and for
each message in a list of pins. -/
theorem flags_kept_iff (current incoming : List Message) (pins : List Message)
    (hpins : OnceEach pins) (rootId : Ulid) (root : Option Message) :
    (mergeReplies current incoming).map Message.shared
        = (mergeMessages current incoming).map Message.shared ∧
      (mergeReplies current incoming = mergeMessages current incoming ↔
        ∀ id, SaysAll (replyTrail current incoming id)) ∧
      (incoming.foldl (absorbRoot rootId) root = incoming.foldl (mergeRoot rootId) root ↔
        SaysAll ((versionsOf rootId incoming).foldl (trail Message.changeSeq fun _ => true)
          root.toList)) ∧
      ∀ id, entryOf (applyPinnedMessages pins incoming) id
          = entryOf (incoming.foldl mergePinned pins) id ↔
        SaysAll ((versionsOf id incoming).foldl (trail Message.changeSeq isPinned)
          (entryOf pins id).toList) := by
  refine ⟨map_shared_mergeReplies current incoming, mergeReplies_eq_iff current incoming, ?_,
    fun id => ?_⟩
  · rw [foldl_absorbRoot, foldl_mergeRoot]
    exact foldl_put_eq_putWith_iff _ _ root
  · rw [entryOf_applyPinnedMessages id incoming hpins, entryOf_foldl_mergePinned id incoming hpins]
    exact foldl_put_eq_putWith_iff isPinned _ _

/-- A message with a reaction, as the viewer reads it and as a frame says it. -/
def reactedTo (changeSeq : ℕ) (me saved : Option Bool) : Message :=
  { Message.said 2 7 changeSeq with reactions := [⟨"👍", 1, me, [1]⟩], saved := saved }

/-- A reply that the viewer saved and reacted to, and its next version as the server answers. -/
theorem flags_kept_of_answer :
    mergeReplies [reactedTo 1 (some true) (some true)] [reactedTo 2 (some true) (some true)]
      = mergeMessages [reactedTo 1 (some true) (some true)]
          [reactedTo 2 (some true) (some true)] := by
  refine (flags_kept_iff _ _ [] nodup_nil 0 none).2.1.mpr fun id => ?_
  by_cases hid : id = 7
  · subst hid
    decide
  · have hnone : ∀ v (me saved : Option Bool), versionsOf id [reactedTo v me saved] = [] := by
      intro v me saved
      unfold versionsOf
      exact filter_eq_nil_iff.mpr fun m hm => by
        rw [mem_singleton.mp hm]
        exact fun heq => hid (of_decide_eq_true heq).symm
    unfold replyTrail
    rw [hnone, hnone]
    trivial

/-- **A thread pane forgets the viewer's flags** when a frame comes in: the timeline keeps them,
and the replies, the root and the pins of the same messages do not. -/
theorem flags_lost_by_frame :
    mergeReplies [reactedTo 1 (some true) (some true)] [reactedTo 2 none none]
        ≠ mergeMessages [reactedTo 1 (some true) (some true)] [reactedTo 2 none none] ∧
      [reactedTo 2 none none].foldl (absorbRoot 7) (some (reactedTo 1 (some true) (some true)))
        ≠ [reactedTo 2 none none].foldl (mergeRoot 7)
            (some (reactedTo 1 (some true) (some true))) := by
  decide +kernel

end Hibari
