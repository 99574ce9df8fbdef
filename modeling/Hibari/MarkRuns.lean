import Hibari.MarkCaps

/-!
# The marks of a room under all orders of requests

What holds of the pins and reactions of a room however the requests to it interleave
(`marks_kept`). A step is inverted once (`RoomMarks.next_spec`): the request goes on with what it
has read and still holds, or it ends and has written nothing, or it commits what it decided under
the locks that it holds. What it decided stays true until then, because what the others commit is in
rows that they hold: these are not its rows, nor are they new.

An answer is what its number says as long as the number is that of the row
(`MarkedRoom.Matches`). Every write to a message gives it a number that no message had, so an answer
is like every other one of its number.

A message that is sent for the second time is read without its row being held, and between the two
statements somebody may have changed its reactions (`resent_message_is_torn`).
-/

namespace Hibari

open List Option Bool

namespace MarkedRoom

variable {db db' : MarkedRoom} {w : MarkRequest} {id : Ulid}

/-- What a request may write, if it has numbers, and which message it reads. -/
def Reads (db : MarkedRoom) (w : MarkRequest) (id : Ulid) : Option MarkWrite → Prop
  | none => ∀ m ∈ w.marked, id = m ∧ db.Live m
  | some x => id = w.subject ∧ db.Writes w x

/-- Whether the message that is read is one that the request holds, or has made. -/
def Sure (w : MarkRequest) (x : Option MarkWrite) : Prop := w.marked.isSome = true ∨ x.isSome = true

/-- **What a request knows** of the rows that it holds. -/
def Ready (db : MarkedRoom) : MarkTask → Prop
  | .access _ | .member _ _ | .target _ _ | .done _ _ => True
  | .threadRoot w root => db.Due (some root) w
  | .reacting w => ∀ m ∈ w.marked, db.Live m
  | .allocate w root => db.Due root w
  | .writing w x => db.Due x.root w ∧ w.numbered x.root db.room = some x.numbers
  | .reading w x id => db.Reads w id x
  | .readingReactions w x id seen => db.Reads w id x ∧ (Sure w x → seen = (db.view w x).row id)
  | .committing w x answer => ∃ id, db.Reads w id x ∧
      (Sure w x → answer = (db.view w x).answer id w.actor)

theorem Live.congr (h : db.Live id) (hids : id ∈ db.ids → id ∈ db'.ids)
    (hrow : id ∈ db.ids → db'.row id = db.row id) : db'.Live id := by
  unfold Live
  rw [hrow h.1]
  exact ⟨hids h.1, h.2⟩

/-- What a request has decided under the lock of its message stays so as long as nobody else writes
the message. -/
theorem Due.congr {root : Option Ulid} (h : db.Due root w) (hids : ∀ id ∈ db.ids, id ∈ db'.ids)
    (hrows : ∀ id ∈ db.ids, id ∈ w.target → db'.row id = db.row id) : db'.Due root w := by
  cases w with
  | changePin _ message =>
    obtain ⟨hlive, hne⟩ : db.Live message ∧ _ := h
    have hrow := hrows message hlive.1 rfl
    refine ⟨hlive.congr (hids message) fun _ => hrow, ?_⟩
    rwa [hrow]
  | changeReaction _ message =>
    obtain ⟨hlive, hchanges⟩ : db.Live message ∧ _ := h
    have hrow := hrows message hlive.1 rfl
    refine ⟨hlive.congr (hids message) fun _ => hrow, ?_⟩
    rwa [hrow]
  | deleteMessage _ message =>
    obtain ⟨hmem, hroot⟩ : message ∈ db.ids ∧ _ := h
    refine ⟨hids message hmem, ?_⟩
    rwa [hrows message hmem rfl]
  | _ => trivial

theorem target_of_marked {m : Ulid} (h : m ∈ w.marked) : m ∈ w.target := by
  cases w with
  | changePin | changeReaction => exact h
  | sendThreadReply =>
    exact absurd h (not_mem_none _)
  | _ => exact absurd h (not_mem_none _)

theorem message_mem_targetRows {m : Ulid} (h : m ∈ w.target) : .message m ∈ w.targetRows :=
  mem_append_right _ (List.mem_map_of_mem (mem_toList.mpr h))

/-- **What a request knows stays true** while nobody else writes the messages that it holds, nor
anything at all while it holds the room. -/
theorem Ready.congr {t : MarkTask} (h : db.Ready t) (hids : ∀ id ∈ db.ids, id ∈ db'.ids)
    (hrows : ∀ id ∈ db.ids, .message id ∈ t.holds → db'.row id = db.row id)
    (hroom : .room ∈ t.holds → db' = db) : db'.Ready t := by
  have hreads : ∀ w id, (∀ m ∈ w.marked, .message m ∈ t.holds) → db.Reads w id none →
      db'.Reads w id none := by
    intro w id hheld hreads m hm
    obtain ⟨heq, hlive⟩ := hreads m hm
    exact ⟨heq, hlive.congr (hids m) fun hmem => hrows m hmem (hheld m hm)⟩
  have hmarked : ∀ w : MarkRequest, ∀ m ∈ w.marked, .message m ∈ w.readRows none :=
    fun w m hm => mem_append_right _ (List.mem_map_of_mem (mem_toList.mpr hm))
  have hlast : ∀ (w : MarkRequest) (x : MarkWrite), .room ∈ w.readRows (some x) :=
    fun w x => mem_append_right _ (.head _)
  cases t with
  | threadRoot =>
    exact Due.congr h hids fun id hmem hid => hrows id hmem (message_mem_targetRows hid)
  | reacting =>
    intro m hm
    exact (h m hm).congr (hids m) fun hmem =>
      hrows m hmem (message_mem_targetRows (target_of_marked hm))
  | allocate =>
    exact Due.congr h hids fun id hmem hid =>
      hrows id hmem (mem_append_left _ (message_mem_targetRows hid))
  | writing w x =>
    rw [hroom (hlast w x)]
    exact h
  | reading w x id =>
    cases x with
    | none => exact hreads w id (hmarked w) h
    | some x =>
      rw [hroom (hlast w x)]
      exact h
  | readingReactions w x id =>
    cases x with
    | none =>
      obtain ⟨h, hseen⟩ := h
      refine ⟨hreads w id (hmarked w) h, fun hsure => (hseen hsure).trans ?_⟩
      obtain ⟨m, hm⟩ := isSome_iff_exists.mp (hsure.resolve_right false_ne_true)
      obtain ⟨rfl, hlive⟩ := h m hm
      exact (hrows id hlive.1 (hmarked w id hm)).symm
    | some x =>
      rw [hroom (hlast w x)]
      exact h
  | committing w x answer =>
    cases x with
    | none =>
      obtain ⟨id, h, hanswer⟩ := h
      refine ⟨id, hreads w id (hmarked w) h, fun hsure => (hanswer hsure).trans ?_⟩
      obtain ⟨m, hm⟩ := isSome_iff_exists.mp (hsure.resolve_right false_ne_true)
      obtain ⟨rfl, hlive⟩ := h m hm
      show db.answer id w.actor = db'.answer id w.actor
      rw [MarkedRoom.answer, MarkedRoom.answer, hrows id hlive.1 (hmarked w id hm)]
    | some x =>
      rw [hroom (hlast w x)]
      exact h
  | _ => trivial

end MarkedRoom

open MarkedRoom

namespace RoomMarks

open MarkTask hiding holds request
open MarkRequest hiding actor target marked sends subject memberRows targetRows readRows numbered

variable {d : MarkSetting} {s : RoomMarks} {t : MarkTask} {w : MarkRequest} {archived : Bool}
  {mv : MarkMove}

/-- **How a request may end**: it is refused, or what it deletes is deleted, or it answers what it
holds and has written nothing, or it commits. -/
inductive Ends (d : MarkSetting) (s : RoomMarks) (t : MarkTask) :
    MarkedRoom → Except ChatError (Option MarkedAnswer) → Bool → List MarkEvent → Prop
  | refused (error : ChatError) : Ends d s t s.db (.error error) false []
  | deleted : Ends d s t s.db (.ok none) false []
  | rests {answer : MarkedAnswer} :
      (∀ m ∈ t.request.marked, s.db.Live m ∧ answer = s.db.answer m t.request.actor) →
      Ends d s t s.db (.ok (returned t.request answer)) false []
  | writes {x : MarkWrite} {after : MarkedRoom} {answer : MarkedAnswer} :
      s.db.Writes t.request x → t.holds = t.request.readRows (some x) →
      after = s.db.perform t.request x →
      answer = after.answer t.request.subject t.request.actor →
      Ends d s t after (.ok (returned t.request answer)) t.request.sends
        (s.events d t.request x answer)

/-- Whether a request goes on. -/
def Going : MarkTask → Prop
  | done _ _ => False
  | _ => True

/-- **What a step does** that a request takes: it goes on with what it knows and what it holds, or
it ends. -/
def Spec (d : MarkSetting) (s : RoomMarks) (t : MarkTask) : MarkMove → Prop
  | .goes t' => Going t' ∧ (∀ r ∈ t'.holds, r ∈ t.holds ∨ s.FreeRow r) ∧ s.db.Ready t'
  | .ends after answer created events => Ends d s t after answer created events

theorem spec_goes {t' : MarkTask} (h : goes t' = some mv)
    (hgoing : Going t') (hheld : ∀ r ∈ t'.holds, r ∈ t.holds ∨ s.FreeRow r)
    (hready : s.db.Ready t') : Spec d s t mv := by
  cases h
  exact ⟨hgoing, hheld, hready⟩

theorem spec_refuse {error : ChatError} (h : s.refuse error = some mv) : Spec d s t mv := by
  cases h
  exact .refused error

theorem accessed_spec (h : s.accessed d archived w = some mv)
    (hfree : ∀ r ∈ w.memberRows, s.FreeRow r) : Spec d s (member w archived) mv := by
  have hmember : ∀ r ∈ w.memberRows, r ∈ (member w archived).holds ∨ s.FreeRow r :=
    fun r hr => .inr (hfree r hr)
  have hunlocked : ∀ l : List RoomRow, l = [] → ∀ r ∈ w.memberRows ++ l,
      r ∈ (member w archived).holds ∨ s.FreeRow r := by
    rintro l rfl r hr
    rw [append_nil] at hr
    exact hmember r hr
  unfold accessed at h
  simp only at h
  split at h
  · exact spec_refuse h
  · split at h
    · split at h
      · exact spec_refuse h
      · exact spec_goes h trivial hmember trivial
    · split at h
      · exact spec_refuse h
      · exact spec_goes h trivial hmember trivial
    · exact spec_goes h trivial hmember trivial
    · split at h
      · exact spec_refuse h
      · split at h
        · exact spec_goes h trivial (hunlocked _ rfl) fun m hm => absurd hm (not_mem_none m)
        · exact spec_goes h trivial (hunlocked _ rfl) trivial
    · split at h
      · exact spec_refuse h
      · split at h
        · exact spec_goes h trivial (hunlocked _ rfl) fun m hm => absurd hm (not_mem_none m)
        · exact spec_goes h trivial hmember trivial

theorem targeted_spec {id : Ulid} (hid : w.target = some id)
    (hfree : s.FreeRow (.message id)) (hmem : id ∈ s.db.ids)
    (h : s.targeted d archived w (s.db.row id) = some mv) : Spec d s (target w archived) mv := by
  have hheld : ∀ r ∈ w.targetRows, r ∈ (target w archived).holds ∨ s.FreeRow r := by
    intro r hr
    rcases mem_append.mp hr with hr | hr
    · exact .inl hr
    · rw [hid] at hr
      obtain rfl := mem_singleton.mp hr
      exact .inr hfree
  have hunlocked : ∀ l : List RoomRow, l = [] → ∀ r ∈ w.targetRows ++ l,
      r ∈ (target w archived).holds ∨ s.FreeRow r := by
    rintro l rfl r hr
    rw [append_nil] at hr
    exact hheld r hr
  unfold targeted at h
  split at h
  · next actor message pin now =>
    obtain rfl := some.inj hid
    split at h
    · exact spec_refuse h
    · next hdeleted =>
      have hlive : s.db.Live message := ⟨hmem, eq_false_iff.mpr hdeleted⟩
      split at h
      · exact spec_refuse h
      · split at h
        · refine spec_goes h trivial hheld fun m hm => ?_
          cases hm
          exact ⟨rfl, hlive⟩
        · next hpin => exact spec_goes h trivial (hunlocked _ rfl) ⟨hlive, hpin⟩
  · next actor message emoji add =>
    cases hid
    split at h
    · exact spec_refuse h
    · next hdeleted =>
      split at h
      · exact spec_refuse h
      · refine spec_goes h trivial hheld fun m hm => ?_
        cases hm
        exact ⟨hmem, eq_false_iff.mpr hdeleted⟩
  · next actor message =>
    cases hid
    split at h
    · exact spec_refuse h
    · split at h
      · exact spec_refuse h
      · split at h
        · cases h
          exact .deleted
        · split at h
          · next root hroot => exact spec_goes h trivial hheld ⟨hmem, hroot.symm⟩
          · next hroot => exact spec_goes h trivial (hunlocked _ rfl) ⟨hmem, hroot.symm⟩
  · cases hid
  · split at h
    · exact spec_goes h trivial (hunlocked _ rfl) trivial
    · exact spec_refuse h

/-- **One step of a request.** -/
theorem next_spec (hready : s.db.Ready t) (h : s.next d t = some mv) : Spec d s t mv := by
  unfold next at h
  split at h
  · next w =>
    have hheld : ∀ r ∈ (member w s.db.room.archived).holds,
        r ∈ (access w).holds ∨ s.FreeRow r := nofun
    split at h
    · split at h
      · exact spec_goes h trivial hheld trivial
      · exact spec_refuse h
    · split at h
      · exact spec_goes h trivial hheld trivial
      · exact spec_refuse h
    · exact spec_goes h trivial hheld trivial
  · next w archived =>
    split at h
    · next hfree => exact accessed_spec h hfree
    · cases h
  · next w archived =>
    split at h
    · cases h
    · next id hid =>
      split at h
      · next hfree =>
        split at h
        · next hmem => exact targeted_spec hid hfree hmem h
        · split at h <;> exact spec_refuse h
      · cases h
  · next w root =>
    split at h
    · next hfree =>
      refine spec_goes h trivial (fun r hr => ?_) hready
      rcases mem_append.mp hr with hr | hr
      · exact .inl hr
      · rw [mem_singleton.mp hr]
        exact .inr hfree
    · cases h
  · next w =>
    split at h
    · next actor message emoji add =>
      have hlive : s.db.Live message := hready message rfl
      simp only at h
      split at h
      · exact spec_refuse h
      · next rows hrows =>
        split at h
        · next hchanges =>
          refine spec_goes h trivial (fun r hr => .inl ?_) ⟨hlive, ?_, hchanges⟩
          · rcases mem_append.mp hr with hr | hr
            · exact hr
            · cases hr
          · rw [hrows]
            rfl
        · refine spec_goes h trivial (fun r hr => .inl hr) fun m hm => ?_
          cases hm
          exact ⟨rfl, hlive⟩
    · cases h
  · next w root =>
    split at h
    · next hfree =>
      split at h
      · next numbers hnumbers =>
        refine spec_goes h trivial (fun r hr => ?_) ⟨hready, hnumbers⟩
        rcases mem_append.mp hr with hr | hr
        · exact .inl hr
        · rw [mem_singleton.mp hr]
          exact .inr hfree
      · exact spec_refuse h
    · cases h
  · next w x =>
    have hheld : ∀ r ∈ w.readRows (some x), r ∈ (writing w x).holds ∨ s.FreeRow r :=
      fun r hr => .inl hr
    obtain ⟨hdue, hnumbered⟩ := hready
    split at h
    · next actor message pin now =>
      split at h
      · exact spec_refuse h
      · next hcap =>
        have hfits : pin = true → s.db.countRoomPins < maxRoomPins :=
          fun hpin => not_le.mp fun hle => hcap ⟨hpin, hle⟩
        exact spec_goes h trivial hheld ⟨rfl, hdue, hfits, hnumbered⟩
    · split at h
      · exact spec_refuse h
      · next hfits => exact spec_goes h trivial hheld ⟨rfl, hdue, hfits, hnumbered⟩
    · split at h
      · exact spec_refuse h
      · next hfits => exact spec_goes h trivial hheld ⟨rfl, hdue, hfits, hnumbered⟩
    · exact spec_goes h trivial hheld ⟨rfl, hdue, trivial, hnumbered⟩
    · exact spec_goes h trivial hheld ⟨rfl, hdue, trivial, hnumbered⟩
  · next w x id => exact spec_goes h trivial (fun r hr => .inl hr) ⟨hready, fun _ => rfl⟩
  · next w x id seen =>
    obtain ⟨hreads, hseen⟩ := hready
    refine spec_goes h trivial (fun r hr => .inl hr) ⟨id, hreads, fun hsure => ?_⟩
    rw [hseen hsure]
    rfl
  · next w answer =>
    cases h
    obtain ⟨id, hreads, hanswer⟩ := hready
    refine .rests fun m hm => ?_
    obtain ⟨rfl, hlive⟩ := hreads m hm
    exact ⟨hlive, hanswer (.inl (isSome_iff_exists.mpr ⟨id, hm⟩))⟩
  · next w x answer =>
    cases h
    obtain ⟨id, ⟨rfl, hwrites⟩, hanswer⟩ := hready
    exact .writes hwrites rfl rfl (hanswer (.inr rfl))
  · cases h

end RoomMarks

/-- **What a request has done that has ended.** One for a pin or a reaction that changed neither has
written nothing and told nobody; if it changed one, it took one number, and told of the message that
it answered. One that deletes has written nothing or took the number of the message, and that of the
root of a reply; one that sends changed no mark. One that failed has written nothing. -/
structure MarkOutcome.Settled (w : MarkRequest) (o : MarkOutcome) : Prop where
  same : w.marked.isSome = true → o.before.SameMarks o.after → o.after = o.before ∧ o.events = []
  changed : w.marked.isSome = true → ¬o.before.SameMarks o.after →
    o.after.room.lastChangeSeq = o.before.room.lastChangeSeq + 1 ∧
      ∃ a rest, o.answer = .ok (some a) ∧ o.events = .messageUpdated a :: rest
  deletes : ∀ actor message, w = .deleteMessage actor message → o.after = o.before ∧ o.events = [] ∨
      o.after.room.lastChangeSeq = o.before.room.lastChangeSeq +
        if (o.before.row message).threadRootId.isSome then 2 else 1
  sends : w.sends = true → o.before.SameMarks o.after
  failed : ∀ error, o.answer = .error error → o.after = o.before ∧ o.events = []

/-- What has written nothing, and told nobody. -/
theorem MarkOutcome.settled_of_eq {w : MarkRequest} {db : MarkedRoom} {created : Bool}
    (answer : Except ChatError (Option MarkedAnswer)) :
    MarkOutcome.Settled w ⟨db, db, answer, created, []⟩ where
  same _ _ := ⟨rfl, rfl⟩
  changed _ hdiffer := absurd db.sameMarks_self hdiffer
  deletes _ _ _ := .inl ⟨rfl, rfl⟩
  sends _ := db.sameMarks_self
  failed _ _ := ⟨rfl, rfl⟩

namespace MarkedRoom

variable {db db' : MarkedRoom} {w w' : MarkRequest} {x : MarkWrite} {a a' : MarkedAnswer}
  {log : Ulid} {m : MarkedMessage} {r : RoomRecord}

/-- The numbers of messages are numbers that the room gave out. -/
def Numbered (db : MarkedRoom) : Prop :=
  ∀ id ∈ db.ids, (db.row id).changeSeq ≤ db.room.lastChangeSeq

/-- What became of the rows: those that are not as they were have a new number. -/
structure Extends (db db' : MarkedRoom) : Prop where
  ids : ∀ id ∈ db.ids, id ∈ db'.ids
  rows : ∀ id ∈ db.ids, db'.row id = db.row id ∨ db.room.lastChangeSeq < (db'.row id).changeSeq

theorem Extends.refl (db : MarkedRoom) : db.Extends db := ⟨fun _ => id, fun _ _ => .inl rfl⟩

theorem Writes.extends (h : db.Writes w x) : db.Extends (db.perform w x) :=
  ⟨fun _ hid => (mem_ids_perform h).mpr (.inl hid), fun _ hid =>
    (row_perform h hid).imp_right fun hrow => hrow.2.1⟩

theorem Numbered.perform (h : db.Numbered) (hw : db.Writes w x) : (db.perform w x).Numbered := by
  intro id hid
  rw [room_perform]
  have hlast := MarkRequest.last_of_numbered hw.numbered
  rcases (mem_ids_perform hw).mp hid with hold | ⟨hsends, rfl⟩
  · rcases row_perform hw hold with hsame | ⟨-, -, hle⟩
    · rw [hsame]
      exact (h id hold).trans (hlast ▸ Nat.le_add_right _ _)
    · exact hle
  · exact (row_perform_subject hw hsends).2.2.2.2

/-- A log line leaves the other messages as they are. -/
theorem extends_createMessage (hlog : log ∉ db.ids) :
    db.Extends (({ db with room := r } : MarkedRoom).createMessage log m) := by
  have hids : (({ db with room := r } : MarkedRoom).createMessage log m).ids = log :: db.ids :=
    ids_createMessage hlog
  refine ⟨fun id hid => ?_, fun id hid => .inl (row_createMessage_of_mem hlog hid)⟩
  rw [hids]
  exact .tail _ hid

theorem Numbered.createMessage
    (h : db.Numbered) (hlog : log ∉ db.ids) (hlast : db.room.lastChangeSeq ≤ r.lastChangeSeq)
    (hm : m.changeSeq ≤ r.lastChangeSeq) :
    (({ db with room := r } : MarkedRoom).createMessage log m).Numbered := by
  intro id hid
  have hids : (({ db with room := r } : MarkedRoom).createMessage log m).ids = log :: db.ids :=
    ids_createMessage hlog
  rw [hids] at hid
  rw [room_createMessage]
  rcases mem_cons.mp hid with rfl | hid
  · have hrow : (({ db with room := r } : MarkedRoom).createMessage id m).row id = m :=
      row_createMessage_self hlog
    rw [hrow]
    exact hm
  · have hrow : (({ db with room := r } : MarkedRoom).createMessage log m).row id = db.row id :=
      row_createMessage_of_mem hlog hid
    rw [hrow]
    exact (h id hid).trans hlast

/-- A message that is answered is there. -/
theorem Writes.live (h : db.Writes w x) (hanswered : RoomMarks.returned w a = some a') :
    (db.perform w x).Live w.subject := by
  cases w with
  | changePin _ message =>
    obtain ⟨hlive, -⟩ : db.Live message ∧ _ := h.due
    refine ⟨hlive.1, ?_⟩
    unfold perform
    show ((MarkedRoom.updateMessage _ message _).row message).deleted = false
    rw [row_updateMessage_self]
    exact hlive.2
  | changeReaction _ message =>
    obtain ⟨hlive, -⟩ : db.Live message ∧ _ := h.due
    refine ⟨hlive.1, ?_⟩
    unfold perform
    show ((MarkedRoom.updateMessage _ message _).row message).deleted = false
    rw [row_updateMessage_self]
    exact hlive.2
  | deleteMessage => cases hanswered
  | sendMessage =>
    exact ⟨(mem_ids_perform h).mpr (.inr ⟨rfl, rfl⟩), (row_perform_subject h rfl).2.2.1⟩
  | sendThreadReply =>
    exact ⟨(mem_ids_perform h).mpr (.inr ⟨rfl, rfl⟩), (row_perform_subject h rfl).2.2.1⟩

/-! ## What an answer says -/

/-- **An answer is not newer than the row**, and it is what the row is if it has its number. -/
structure Matches (db : MarkedRoom) (w : MarkRequest) (a : MarkedAnswer) : Prop where
  mem : a.id ∈ db.ids
  le : a.changeSeq ≤ (db.row a.id).changeSeq
  pinned : a.changeSeq = (db.row a.id).changeSeq → a.pinned = (db.row a.id).pinned
  reactions : a.changeSeq = (db.row a.id).changeSeq →
    a.reactions = (db.row a.id).reactions.listMessageReactions w.actor

theorem matches_answer {id : Ulid} (h : db.Live id) : db.Matches w (db.answer id w.actor) where
  mem := h.1
  le := Nat.le_refl _
  pinned _ := rfl
  reactions _ := if_neg (eq_false_iff.mp h.2)

theorem Matches.extend (h : db.Matches w a) (hnumbered : db.Numbered) (hdb : db.Extends db') :
    db'.Matches w a := by
  rcases hdb.rows a.id h.mem with hrow | hlt
  · refine ⟨hdb.ids a.id h.mem, ?_, ?_, ?_⟩
    · rw [hrow]
      exact h.le
    · rw [hrow]
      exact h.pinned
    · rw [hrow]
      exact h.reactions
  · have hlt' : a.changeSeq < (db'.row a.id).changeSeq :=
      (h.le.trans (hnumbered a.id h.mem)).trans_lt hlt
    exact ⟨hdb.ids a.id h.mem, hlt'.le, fun heq => absurd heq hlt'.ne, fun heq =>
      absurd heq hlt'.ne⟩

/-- **Two answers with one number say the same**: they have the same pin, and the reactions of each
are what who asked sees of the same rows. -/
def Agree (w : MarkRequest) (a : MarkedAnswer) (w' : MarkRequest) (a' : MarkedAnswer) : Prop :=
  a.id = a'.id → a.changeSeq = a'.changeSeq → a.pinned = a'.pinned ∧
    ∃ rows : ReactionRows, a.reactions = rows.listMessageReactions w.actor ∧
      a'.reactions = rows.listMessageReactions w'.actor

theorem Agree.symm (h : Agree w a w' a') : Agree w' a' w a := by
  intro hid hseq
  obtain ⟨hpinned, rows, hrows, hrows'⟩ := h hid.symm hseq.symm
  exact ⟨hpinned.symm, rows, hrows', hrows⟩

theorem agree_answer {id : Ulid} (h : db.Live id) (h' : db.Matches w' a') :
    Agree w (db.answer id w.actor) w' a' := by
  rintro rfl hseq
  have hcurrent := matches_answer (w := w) h
  exact ⟨(hcurrent.pinned rfl).trans (h'.pinned hseq.symm).symm, _, hcurrent.reactions rfl,
    h'.reactions hseq.symm⟩

end MarkedRoom

namespace RoomMarks

open MarkedRoom (Agree)
open MarkTask (done access)

variable {d : MarkSetting} {s s' : RoomMarks} {t : MarkTask} {w : MarkRequest} {i : ℕ}
  {after : MarkedRoom} {answer : Except ChatError (Option MarkedAnswer)} {created : Bool}
  {events : List MarkEvent}

theorem settled_of_ends (h : Ends d s t after answer created events) :
    MarkOutcome.Settled t.request ⟨s.db, after, answer, created, events⟩ := by
  cases h with
  | @writes x _ a hwrites hheld hafter hanswer =>
    subst hafter
    have hlast : (s.db.perform t.request x).room.lastChangeSeq
        = s.db.room.lastChangeSeq + t.request.taken x.root := by
      rw [room_perform]
      exact MarkRequest.last_of_numbered hwrites.numbered
    refine ⟨fun hmarked hsame => absurd hsame (not_sameMarks_perform hwrites hmarked),
      fun hmarked _ => ?_, fun actor message hw => .inr (hlast.trans ?_),
      sameMarks_perform hwrites, fun error herror => ?_⟩
    · cases hw : t.request with
      | changePin =>
        rw [hw] at hlast
        exact ⟨hlast, a, [], rfl, rfl⟩
      | changeReaction =>
        rw [hw] at hlast
        exact ⟨hlast, a, _, rfl, rfl⟩
      | _ =>
        rw [hw] at hmarked
        cases hmarked
    · have hdue := hwrites.due
      rw [hw] at hdue ⊢
      obtain ⟨-, hroot⟩ : message ∈ s.db.ids ∧ _ := hdue
      rw [hroot]
      rfl
    · cases herror
  | _ => exact MarkOutcome.settled_of_eq _

/-- What the others see of a request that ends. -/
structure Left (s : RoomMarks) (t : MarkTask) (after : MarkedRoom) : Prop where
  /-- The rows are as before, or they were written by who held them. -/
  rows : after = s.db ∨ .room ∈ t.holds ∧ s.db.Extends after ∧ ∀ id ∈ s.db.ids,
    after.row id = s.db.row id ∨ .message id ∈ t.holds
  capped : after.Capped
  numbered : after.Numbered

theorem left_of_ends (h : Ends d s t after answer created events) (hcapped : s.db.Capped)
    (hnumbered : s.db.Numbered) : Left s t after := by
  cases h with
  | @writes x _ a hwrites hheld hafter hanswer =>
    subst hafter
    refine ⟨.inr ⟨?_, hwrites.extends, fun id hid => ?_⟩, hcapped.perform hwrites,
      hnumbered.perform hwrites⟩
    · rw [hheld]
      exact mem_append_right _ (.head _)
    · rw [hheld]
      exact (row_perform hwrites hid).imp_right And.left
  | _ => exact ⟨.inl rfl, hcapped, hnumbered⟩

theorem Left.extends (h : Left s t after) : s.db.Extends after := by
  rcases h.rows with rfl | ⟨-, hextends, -⟩
  · exact MarkedRoom.Extends.refl _
  · exact hextends

/-- An answer that is sure is what the rows are. -/
theorem live_of_ends {a : MarkedAnswer} (h : Ends d s t after (.ok (some a)) created events)
    (hsure : t.request.marked.isSome = true ∨ created = true) :
    ∃ id, after.Live id ∧ a = after.answer id t.request.actor := by
  generalize hok : (Except.ok (some a) : Except ChatError (Option MarkedAnswer)) = answer at h
  have heq : ∀ {answer : MarkedAnswer}, Except.ok (some a) = (Except.ok
      (returned t.request answer) : Except ChatError (Option MarkedAnswer)) →
      returned t.request answer = some a ∧ a = answer := by
    intro answer hok
    have hreturned : returned t.request answer = some a := (Except.ok.inj hok).symm
    refine ⟨hreturned, ?_⟩
    unfold returned at hreturned
    split at hreturned
    · cases hreturned
    · exact (some.inj hreturned).symm
  cases h with
  | rests hrests =>
    obtain ⟨m, hm⟩ := isSome_iff_exists.mp (hsure.resolve_right false_ne_true)
    obtain ⟨hlive, hanswer⟩ := hrests m hm
    exact ⟨m, hlive, (heq hok).2.trans hanswer⟩
  | @writes x _ answer hwrites hheld hafter hanswer =>
    subst hafter
    obtain ⟨hreturned, ha⟩ := heq hok
    exact ⟨t.request.subject, hwrites.live hreturned, ha.trans hanswer⟩
  | _ => cases hok

/-! ## What holds in every state -/

/-- A message that was answered, and that the request held or has made. -/
def Returned (tasks : List MarkTask) (w : MarkRequest) (a : MarkedAnswer) : Prop :=
  ∃ o, done w o ∈ tasks ∧ o.answer = .ok (some a) ∧ (w.marked.isSome = true ∨ o.created = true)

/-- **The invariant.** -/
structure Inv (s : RoomMarks) : Prop where
  capped : s.db.Capped
  numbered : s.db.Numbered
  /-- No row is held twice. -/
  apart : HeldRows.Apart MarkTask.holds s.tasks
  ready : ∀ t ∈ s.tasks, s.db.Ready t
  settled : ∀ w o, done w o ∈ s.tasks → o.Settled w
  matched : ∀ w a, Returned s.tasks w a → s.db.Matches w a
  agree : ∀ w a w' a', Returned s.tasks w a → Returned s.tasks w' a' → Agree w a w' a'

theorem Inv.start (h : s.New) : Inv s := by
  obtain ⟨htasks, hrows⟩ := h
  have hnone : ∀ t, t ∉ s.tasks := fun t ht => by
    rw [htasks] at ht
    exact not_mem_nil ht
  have hpins : s.db.countRoomPins = 0 := countP_eq_zero.mpr fun id hid => by
    rw [(hrows id hid).1]
    exact false_ne_true
  refine ⟨⟨hpins ▸ Nat.zero_le _, fun id hid _ => (hrows id hid).1, fun id hid => ?_,
    fun id hid => ?_⟩, fun id hid => (hrows id hid).2.2, htasks ▸ HeldRows.apart_nil,
    fun t ht => absurd ht (hnone t), fun w o ho => absurd ho (hnone _),
    fun w a ⟨o, ho, _⟩ => absurd ho (hnone _), fun w a w' a' ⟨o, ho, _⟩ => absurd ho (hnone _)⟩
  · rw [(hrows id hid).2.1]
    exact nodup_nil
  · rw [(hrows id hid).2.1]
    exact Nat.zero_le _

variable (h : Inv s)
include h

/-- The other requests are as they were, and a request that goes on has not ended. -/
theorem Inv.goes {t' : MarkTask} (hi : s.tasks[i]? = some t) (hgoing : Going t')
    (hheld : ∀ r ∈ t'.holds, r ∈ t.holds ∨ s.FreeRow r) (hready : s.db.Ready t') :
    Inv { s with tasks := s.tasks.set i t' } := by
  have hold : ∀ w o, done w o ∈ s.tasks.set i t' → done w o ∈ s.tasks := by
    intro w o ho
    rcases mem_or_eq_of_mem_set ho with ho | rfl
    · exact ho
    · exact hgoing.elim
  refine ⟨h.capped, h.numbered, h.apart.set hi hheld, fun u hu => ?_,
    fun w o ho => h.settled w o (hold w o ho),
    fun w a ⟨o, ho, hanswer⟩ => h.matched w a ⟨o, hold w o ho, hanswer⟩,
    fun w a w' a' ⟨o, ho, hanswer⟩ ⟨o', ho', hanswer'⟩ =>
      h.agree w a w' a' ⟨o, hold w o ho, hanswer⟩ ⟨o', hold w' o' ho', hanswer'⟩⟩
  rcases mem_or_eq_of_mem_set hu with hu | rfl
  · exact h.ready u hu
  · exact hready

/-- **A request ends**: what the others know stays true, and its answer is like those before. -/
theorem Inv.ends (hi : s.tasks[i]? = some t) (hends : Ends d s t after answer created events) :
    Inv (s.moved i t.request (.ends after answer created events)) := by
  have hleft := left_of_ends hends h.capped h.numbered
  have hnew : ∀ {w : MarkRequest} {a : MarkedAnswer},
      Returned (s.tasks.set i (done t.request ⟨s.db, after, answer, created, events⟩)) w a →
      Returned s.tasks w a ∨ w = t.request ∧ ∃ id, after.Live id ∧ a = after.answer id w.actor := by
    rintro w a ⟨o, ho, hanswer, hsure⟩
    rcases mem_or_eq_of_mem_set ho with ho | heq
    · exact Or.inl ⟨o, ho, hanswer, hsure⟩
    · obtain ⟨rfl, rfl⟩ := MarkTask.done.inj heq
      have hanswer : answer = .ok (some a) := hanswer
      rw [hanswer] at hends
      exact Or.inr ⟨rfl, live_of_ends hends hsure⟩
  have hmatched : ∀ {w : MarkRequest} {a : MarkedAnswer},
      Returned (s.tasks.set i (done t.request ⟨s.db, after, answer, created, events⟩)) w a →
      after.Matches w a := by
    intro w a ha
    rcases hnew ha with hold | ⟨-, id, hlive, rfl⟩
    · exact (h.matched w a hold).extend h.numbered hleft.extends
    · exact matches_answer hlive
  refine ⟨hleft.capped, hleft.numbered, h.apart.set hi fun r hr => absurd hr not_mem_nil,
    fun u hu => ?_, fun w o ho => ?_, fun w a ha => hmatched ha, fun w a w' a' ha ha' => ?_⟩
  · -- what the others hold is not what was written
    rcases mem_iff_getElem?.mp hu with ⟨j, hj⟩
    rcases HeldRows.getElem?_set_cases hj with ⟨-, rfl⟩ | ⟨hne, hj⟩
    · trivial
    · have hready := h.ready u (mem_of_getElem? hj)
      rcases hleft.rows with heq | ⟨hroom, hextends, hrows⟩
      · exact heq ▸ hready
      · refine hready.congr hextends.ids (fun id hid hheld => ?_) fun hheld => ?_
        · exact (hrows id hid).resolve_right fun hmine =>
            h.apart.notMem hi hj (Ne.symm hne) hmine hheld
        · exact absurd hheld (h.apart.notMem hi hj (Ne.symm hne) hroom)
  · rcases mem_or_eq_of_mem_set ho with ho | heq
    · exact h.settled w o ho
    · obtain ⟨rfl, rfl⟩ := MarkTask.done.inj heq
      exact settled_of_ends hends
  · rcases hnew ha with hold | ⟨rfl, id, hlive, rfl⟩
    · rcases hnew ha' with hold' | ⟨rfl, id, hlive, rfl⟩
      · exact h.agree w a w' a' hold hold'
      · exact (agree_answer hlive (hmatched ha)).symm
    · exact agree_answer hlive (hmatched ha')

/-- A request begins. -/
theorem Inv.begin (w : MarkRequest) : Inv { s with tasks := s.tasks ++ [access w] } := by
  have hold : ∀ w' o, done w' o ∈ s.tasks ++ [access w] → done w' o ∈ s.tasks := by
    intro w' o ho
    rcases mem_append.mp ho with ho | ho
    · exact ho
    · cases mem_singleton.mp ho
  refine ⟨h.capped, h.numbered, h.apart.concat rfl, fun u hu => ?_,
    fun w o ho => h.settled w o (hold w o ho),
    fun w a ⟨o, ho, hanswer⟩ => h.matched w a ⟨o, hold w o ho, hanswer⟩,
    fun w a w' a' ⟨o, ho, hanswer⟩ ⟨o', ho', hanswer'⟩ =>
      h.agree w a w' a' ⟨o, hold w o ho, hanswer⟩ ⟨o', hold w' o' ho', hanswer'⟩⟩
  rcases mem_append.mp hu with hu | hu
  · exact h.ready u hu
  · rw [mem_singleton.mp hu]
    trivial

/-- The flag is set while nobody holds the room. -/
theorem Inv.setArchived {actor log : Ulid} {archive : Bool}
    (hs : s.act d (.setArchived actor log archive) = some s') : Inv s' := by
  unfold act at hs
  simp only at hs
  split at hs
  · next hguard =>
    obtain ⟨hfree, -, hlog⟩ := hguard
    cases hs
    refine ⟨(h.capped.room _).createMessage hlog rfl rfl,
      h.numbered.createMessage hlog (Nat.le_succ _) (Nat.le_refl _), h.apart, fun t ht => ?_,
      h.settled, fun w a ha => (h.matched w a ha).extend h.numbered
        (extends_createMessage hlog), h.agree⟩
    exact (h.ready t ht).congr (extends_createMessage hlog).ids
      (fun id hid _ => row_createMessage_of_mem hlog hid)
      fun hroom => absurd hroom (hfree t ht)
  · cases hs

theorem Inv.act {a : RoomMarksAction} (hs : s.act d a = some s') : Inv s' := by
  cases a with
  | start w =>
    cases hs
    exact h.begin w
  | step =>
    simp only [RoomMarks.act] at hs
    split at hs
    · cases hs
    · next t hi =>
      obtain ⟨mv, hmv, rfl⟩ := map_eq_some_iff.mp hs
      have hspec := next_spec (h.ready t (mem_of_getElem? hi)) hmv
      cases mv with
      | goes =>
        obtain ⟨hgoing, hheld, hready⟩ := hspec
        exact h.goes hi hgoing hheld hready
      | ends => exact h.ends hi hspec
  | fail =>
    simp only [RoomMarks.act] at hs
    split at hs
    · cases hs
    · cases hs
    · next t hdone hi =>
      cases hs
      exact h.ends (d := d) hi (.refused .failed)
  | setArchived => exact h.setArchived hs

omit h

theorem inv_of_reachable (h : (system d).Reachable s) : Inv s :=
  h.invariant (fun _ => Inv.start) fun _ _ _ hinv _ hs => hinv.act hs

/-- **Caps and numbers of marks, in every order of requests.** The room has at most as many pins as
it may have, none of them of a deleted message, and each message has at most as many kinds of
reactions as it may have, with one row for each user and emoji. A request for a pin or a reaction
that leaves both as they were takes no number and tells nobody, and one that changes them takes one;
one that deletes takes one, or two for a reply, and one that sends changes no mark. What such a
request answers, or one that has made the message that it answers, is what its number says. -/
theorem marks_kept (h : (system d).Reachable s) :
    s.db.Capped ∧ (∀ w o, done w o ∈ s.tasks → o.Settled w) ∧
      ∀ w a w' a', Returned s.tasks w a → Returned s.tasks w' a' → Agree w a w' a' :=
  have hinv := inv_of_reachable h
  ⟨hinv.capped, hinv.settled, hinv.agree⟩

/-! ## A message that is sent twice -/

/-- Everybody is a member of a public room, and every emoji is one. -/
def openRoom : MarkSetting where
  kind := .roomPublic
  isDefault := false
  actors := fun _ => ⟨.member, true⟩
  validEmoji := fun _ => true
  reactionActivityTarget := fun _ => true

/-- A room without messages. -/
def emptyRoom : RoomMarks where
  db :=
    { room := ⟨false, 0, 0, 0⟩
      ids := []
      row := fun _ => MarkedRoom.userMessage 0 0 none 0
      nodup := nodup_nil }
  tasks := []

theorem new_emptyRoom : emptyRoom.New := ⟨rfl, nofun⟩

/-- What a request answered that has ended. -/
def answered (s : RoomMarks) (i : ℕ) : Option MarkedAnswer :=
  match s.tasks[i]? with
  | some (done _ o) =>
    match o.answer with
    | .ok a => a
    | .error _ => none
  | _ => none

/-- How many numbers were taken in the end of a request, and whether the pin of a message changed.
-/
def taken (s : RoomMarks) (i : ℕ) (id : Ulid) : Option (ℕ × Bool) :=
  match s.tasks[i]? with
  | some (done _ o) => some (o.after.room.lastChangeSeq - o.before.room.lastChangeSeq,
      decide (o.before.pin id ≠ o.after.pin id))
  | _ => none

/-- A message is sent, and sent again. Once its row is read for the second answer, somebody puts a
reaction on it, and then the reactions are read. -/
def resending : List RoomMarksAction :=
  .start (.sendMessage 7 3 1) :: List.replicate 7 (.step 0) ++
    (.start (.sendMessage 7 3 2) :: List.replicate 3 (.step 1)) ++
    (.start (.changeReaction 8 1 "thumbsup" true) :: List.replicate 9 (.step 2)) ++
    List.replicate 2 (.step 1)

/-- A message is sent and a reply to it, which is pinned and deleted. -/
def deletingReply : List RoomMarksAction :=
  .start (.sendMessage 7 3 1) :: List.replicate 7 (.step 0) ++
    (.start (.sendThreadReply 7 4 2 1 false) :: List.replicate 8 (.step 1)) ++
    (.start (.changePin 8 2 true 5) :: List.replicate 8 (.step 2)) ++
    (.start (.deleteMessage 7 2) :: List.replicate 9 (.step 3))

theorem reachable_of_run {as : List RoomMarksAction} {s : RoomMarks}
    (h : (system openRoom).run emptyRoom as = some s) : (system openRoom).Reachable s :=
  TransitionSystem.reachableBy_of_run new_emptyRoom (fun _ _ _ => trivial) h

/-- The marks of the room after the run `deletingReply`. -/
theorem marks_kept_deletingReply :
    ∃ s, (system openRoom).run emptyRoom deletingReply = some s ∧ s.db.Capped ∧
      (∀ w o, done w o ∈ s.tasks → o.Settled w) ∧
        ∀ w a w' a', Returned s.tasks w a → Returned s.tasks w' a' → Agree w a w' a' := by
  have hsome : ((system openRoom).run emptyRoom deletingReply).isSome = true := by decide +kernel
  obtain ⟨s, hs⟩ := isSome_iff_exists.mp hsome
  exact ⟨s, hs, marks_kept (reachable_of_run hs)⟩

/-- **Not every request is like that.** Who sends a message for the second time may be answered its
old number with newer reactions; a message that is sent takes a number and changes no mark; and a
pinned reply that is deleted takes two. -/
theorem resent_message_is_torn :
    (∃ s a a', (system openRoom).Reachable s ∧ answered s 0 = some a ∧ answered s 1 = some a' ∧
      a.id = a'.id ∧ a.changeSeq = a'.changeSeq ∧ a.reactions ≠ a'.reactions) ∧
    ∃ s, (system openRoom).Reachable s ∧ taken s 0 1 = some (1, false) ∧
      taken s 3 2 = some (2, true) := by
  constructor
  · have hrun : ((system openRoom).run emptyRoom resending).map
        (fun s => (answered s 0, answered s 1)) = some (some ⟨1, 1, none, []⟩,
            some ⟨1, 1, none, [⟨"thumbsup", 1, some false, [8]⟩]⟩) := by
      decide +kernel
    obtain ⟨s, hs, hanswers⟩ := map_eq_some_iff.mp hrun
    obtain ⟨hfirst, hsecond⟩ := Prod.mk.inj hanswers
    exact ⟨s, _, _, reachable_of_run hs, hfirst, hsecond, rfl, rfl, by decide⟩
  · have hrun : ((system openRoom).run emptyRoom deletingReply).map
        (fun s => (taken s 0 1, taken s 3 2)) = some (some (1, false), some (2, true)) := by
      decide +kernel
    obtain ⟨s, hs, htaken⟩ := map_eq_some_iff.mp hrun
    obtain ⟨hfirst, hsecond⟩ := Prod.mk.inj htaken
    exact ⟨s, reachable_of_run hs, hfirst, hsecond⟩

end RoomMarks

end Hibari
