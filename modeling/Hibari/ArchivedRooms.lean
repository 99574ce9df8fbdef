import Hibari.RoomArchive

/-!
# What happens to a room that is archived

Nobody writes into an archived room: whoever takes numbers holds the room's row from
then on, and so does whoever sets the flag, and numbers are not given where the flag is
set. That needs nothing of a run (`Locked`). A preview that is completed without a
number does not show.

The huddle of an archived room is ended by the call that archived the room, after it
has committed. A huddle that goes on in an archived room is therefore one that some
call is about to end (`Pursued`) – as long as no huddle is started there once that call
has looked. Nothing keeps a join from it: it has read the flag before the room was
archived, and the statement that numbers the message of a huddle is the one for log
lines (`huddle_in_archived_room`). Runs in which no huddle is committed so, and in
which the transaction that ends it does not fail, leave no huddle in an archived room
(`archived_room_rests`).
-/

namespace Hibari

open List Option

/-! ## Numbers

Where numbers are given out the flag is not set, before and after. -/

namespace RoomRecord

variable {numbers r : RoomRecord}

theorem allocateMessageSeq_eq_some (h : r.allocateMessageSeq = some numbers) :
    numbers.archived = false ∧ r.archived = false := by
  unfold allocateMessageSeq at h
  split_ifs at h with hflag
  rw [← some.inj h]
  exact ⟨Bool.eq_false_of_not_eq_true hflag, Bool.eq_false_of_not_eq_true hflag⟩

theorem allocateThreadReplySeq_eq_some {inChannel : Bool}
    (h : r.allocateThreadReplySeq inChannel = some numbers) :
    numbers.archived = false ∧ r.archived = false := by
  unfold allocateThreadReplySeq at h
  by_cases hflag : r.archived = true
  · rw [if_pos hflag] at h
    cases h
  · rw [if_neg hflag] at h
    rw [← some.inj h]
    exact ⟨Bool.eq_false_of_not_eq_true hflag, Bool.eq_false_of_not_eq_true hflag⟩

theorem allocateChangeSeq_eq_some {n : ℕ} (h : r.allocateChangeSeq n = some numbers) :
    numbers.archived = false ∧ r.archived = false := by
  unfold allocateChangeSeq at h
  split_ifs at h with hflag
  rw [← some.inj h]
  exact ⟨Bool.eq_false_of_not_eq_true hflag, Bool.eq_false_of_not_eq_true hflag⟩

end RoomRecord

open RoomRecord

/-! ## What users see -/

/-- What users see of what a user wrote. -/
structure ShownMessage where
  senderId : Ulid
  body : String
  threadRootId : Option Ulid
  deleted : Bool
  threadReplyCount : ℕ
  reactions : List (Ulid × String)
  linkPreviews : List (String × Option Ulid)
  deriving DecidableEq

/-- The previews that are shown: those that were fetched, and not removed. -/
def shownLinkPreviews (rows : List LinkPreviewRow) : List (String × Option Ulid) :=
  (rows.filter (fun p => decide (p.status = .ok) && !p.removed)).map fun p =>
    (p.url, p.linkPreviewId)

/-- A log line is not what a user wrote. -/
def StoredMessage.shown (m : StoredMessage) : Option ShownMessage :=
  if m.kind = .user then
    some ⟨m.senderId, m.body, m.threadRootId, m.deleted, m.threadReplyCount, m.reactions,
      shownLinkPreviews m.linkPreviews⟩
  else none

namespace RoomDatabase

variable {huddle id k preview : Ulid} {m : StoredMessage} {link : Option Ulid} {h : HuddleRecord}

/-- **What users wrote in a room.** -/
def content (db : RoomDatabase) (id : Ulid) : Option ShownMessage :=
  (db.messages.lookup id).bind StoredMessage.shown

/-- A preview is still to be completed, and will not be shown. -/
def Awaits (db : RoomDatabase) (message preview : Ulid) (link : Option Ulid) : Prop :=
  ∃ m p, db.messages.lookup message = some m ∧
    m.linkPreviews.find? (fun q => decide (q.id = preview)) = some p ∧ p.status = .pending ∧
      (link.isSome = true → p.removed = true)

variable {db db' : RoomDatabase}

theorem content_congr (h : db'.messages = db.messages) : db'.content = db.content := by
  funext id
  unfold content
  rw [h]

/-- A log line is not content. -/
theorem content_createMessage (hkind : m.kind = .system)
    (h : db.createMessage id m = some db') : db'.content = db.content := by
  unfold createMessage at h
  split_ifs at h with hin
  rw [← some.inj h]
  funext k
  show ((db.messages.insert id m).lookup k).bind StoredMessage.shown = _
  by_cases hk : k = id
  · rw [hk, AList.lookup_insert, content, AList.lookup_eq_none.mpr hin]
    show m.shown = none
    rw [StoredMessage.shown, hkind]
    rfl
  · rw [AList.lookup_insert_ne hk]
    rfl

theorem content_updateMessage {f : StoredMessage → StoredMessage}
    (hsame : ∀ m, db.messages.lookup id = some m → (f m).shown = m.shown) :
    (db.updateMessage id f).content = db.content := by
  unfold updateMessage
  split
  · next m hm =>
    funext k
    show ((db.messages.insert id (f m)).lookup k).bind StoredMessage.shown = _
    by_cases hk : k = id
    · rw [hk, AList.lookup_insert, content, hm]
      exact hsame m hm
    · rw [AList.lookup_insert_ne hk]
      rfl
  · rfl

@[simp] theorem updateMessage_room (db : RoomDatabase) (id : Ulid)
    (f : StoredMessage → StoredMessage) : (db.updateMessage id f).room = db.room := by
  unfold updateMessage
  split <;> rfl

@[simp] theorem updateMessage_huddles (db : RoomDatabase) (id : Ulid)
    (f : StoredMessage → StoredMessage) : (db.updateMessage id f).huddles = db.huddles := by
  unfold updateMessage
  split <;> rfl

theorem lookup_updateMessage (db : RoomDatabase) (f : StoredMessage → StoredMessage)
    (hk : k ≠ id) : (db.updateMessage id f).messages.lookup k = db.messages.lookup k := by
  unfold updateMessage
  split
  · exact AList.lookup_insert_ne hk
  · rfl

/-- What is there stays as it is. -/
theorem lookup_createMessage {row : StoredMessage}
    (h : db.createMessage id m = some db') (hk : db.messages.lookup k = some row) :
    db'.messages.lookup k = some row := by
  unfold createMessage at h
  split_ifs at h with hin
  rw [← some.inj h]
  have hne : k ≠ id := by
    rintro rfl
    cases (AList.lookup_eq_none.mpr hin).symm.trans hk
  exact (AList.lookup_insert_ne hne).trans hk

theorem createMessage_same (h : db.createMessage id m = some db') :
    db'.room = db.room ∧ db'.huddles = db.huddles := by
  unfold createMessage at h
  split_ifs at h
  rw [← some.inj h]
  exact ⟨rfl, rfl⟩

/-- **A preview that is completed without a number is not shown**, before and after. -/
theorem shown_completeMessageLinkPreview {rows : List LinkPreviewRow} {p : LinkPreviewRow}
    (hfind : rows.find? (fun q => decide (q.id = preview)) = some p) (hpending : p.status = .pending)
    (hremoved : link.isSome = true → p.removed = true) :
    shownLinkPreviews (completeMessageLinkPreview preview link rows) = shownLinkPreviews rows := by
  induction rows with
  | nil => rfl
  | cons q _ ih =>
    unfold completeMessageLinkPreview
    by_cases hq : q.id = preview
    · rw [find?_cons_of_pos (by simpa using hq)] at hfind
      cases hfind
      rw [if_pos hq]
      cases link with
      | none => simp [shownLinkPreviews, hpending]
      | some => simp [shownLinkPreviews, hpending, hremoved rfl]
    · rw [find?_cons_of_neg (by simpa using hq)] at hfind
      rw [if_neg hq]
      have hrest := ih hfind
      unfold shownLinkPreviews at hrest ⊢
      rw [filter_cons, filter_cons]
      split_ifs
      · rw [map_cons, map_cons, hrest]
      · exact hrest

theorem Awaits.frame {message : Ulid} (h : db.Awaits message preview link)
    (hframe : ∀ row, db.messages.lookup message = some row →
      db'.messages.lookup message = some row) : db'.Awaits message preview link := by
  obtain ⟨m, p, hm, hp⟩ := h
  exact ⟨m, p, hframe m hm, hp⟩

theorem activeHuddle_eq_some (hactive : db.activeHuddle = some (huddle, h)) :
    db.huddles.lookup huddle = some h ∧ h.ended = false := by
  obtain ⟨e, he, heq⟩ := map_eq_some_iff.mp hactive
  cases heq
  refine ⟨AList.mem_lookup_iff.mpr (mem_of_find?_eq_some he), ?_⟩
  have hnot := find?_some he
  simpa using hnot

theorem activeHuddle_eq_none (hnone : db.activeHuddle = none)
    (hrow : db.huddles.lookup huddle = some h) : h.ended = true := by
  have hentry := AList.mem_lookup_iff.mp hrow
  rw [activeHuddle, map_eq_none_iff, find?_eq_none] at hnone
  simpa using hnone _ hentry

end RoomDatabase

namespace RoomTask

/-- The key of a row: who holds it. -/
def holding (r : RoomRow) (t : RoomTask) : Option Unit := if r ∈ t.holds then some () else none

theorem holding_eq_some {r : RoomRow} {t : RoomTask} {k : Unit} :
    t.holding r = some k ↔ r ∈ t.holds := by
  unfold holding
  by_cases h : r ∈ t.holds
  · simp [h]
  · simp [h]

/-- **What a call knows of the database** where it is, as it holds the rows that say so. -/
def Knows (db : RoomDatabase) : RoomTask → Prop
  | second (.completeLinkPreview _ preview _) row => row = .linkPreview preview
  | allocate (.completeLinkPreview message preview _) row =>
    row = some (.linkPreview preview) ∧ db.Awaits message preview none
  | writing _ _ numbers => numbers.archived = false ∧ db.room.archived = false
  | completing message preview link => db.Awaits message preview link
  | archiveSet _ _ _ numbers | touchMessage _ _ _ numbers | touching _ _ _ numbers =>
    numbers.archived = db.room.archived
  | archiving _ _ archive numbers => numbers.archived = archive
  | joinStarted _ _ numbers => numbers.archived = db.room.archived ∧
    ∀ huddle h, db.huddles.lookup huddle = some h → h.ended = true
  | _ => True

/-- A call is about to end a huddle, or whichever goes on. -/
def due (huddle : Ulid) : RoomTask → Prop
  | endFind => True
  | endWait h | touchNumber h _ .ended | touchMessage h _ .ended _ | touching h _ .ended _ =>
    h = huddle
  | _ => False

instance (huddle : Ulid) (t : RoomTask) : Decidable (t.due huddle) := by
  unfold due
  split <;> infer_instance

end RoomTask

namespace RoomService

open RoomTask RoomDatabase Threads
open ContentRequest hiding target actor memberRows targetRows

variable {d : RoomSetting} {s s' : RoomService} {i : ℕ} {t t' : RoomTask} {db' : RoomDatabase}
  {w : ContentRequest} {empty archived : Bool}
  {error : Option ChatError} {u : RoomTask} {message : Ulid} {row : Option RoomRow}
    {numbers : RoomRecord} {a : RoomServiceAction}

/-! ## Steps that write nothing -/

/-- **A step that writes nothing**: what is held after it was held, or was free. -/
structure Goes (s : RoomService) (t : RoomTask) (db' : RoomDatabase) (t' : RoomTask) : Prop where
  db : db' = s.db
  holds : ∀ r ∈ t'.holds, r ∈ t.holds ∨ s.FreeRow r
  knows : t'.Knows s.db

theorem goes_done (h : s.ended error = some (db', t')) : Goes s t db' t' := by
  cases h
  exact ⟨rfl, fun r hr => absurd hr not_mem_nil, trivial⟩

theorem goes_of (h : s.goes u = some (db', t'))
    (hholds : ∀ r ∈ u.holds, r ∈ t.holds ∨ s.FreeRow r) (hknows : u.Knows s.db) :
    Goes s t db' t' := by
  cases h
  exact ⟨rfl, hholds, hknows⟩

/-- What a call does with the room as it was read. -/
theorem goes_accessed (hfree : ∀ r ∈ w.memberRows, s.FreeRow r)
    (h : s.accessed d archived w = some (db', t')) : Goes s (member w archived) db' t' := by
  have htarget : ∀ r ∈ (RoomTask.target w archived).holds,
      r ∈ (member w archived).holds ∨ s.FreeRow r := fun r hr => .inr (hfree r hr)
  unfold accessed at h
  cases w with
  | sendMessage =>
    simp only at h
    split at h
    · exact goes_done h
    · split at h
      · exact goes_done h
      · refine goes_of h (fun r hr => .inr (hfree r ?_)) trivial
        simpa [RoomTask.holds, ContentRequest.targetRows, ContentRequest.target] using hr
  | sendThreadReply =>
    simp only at h
    split at h
    · exact goes_done h
    · split at h
      · exact goes_done h
      · exact goes_of h htarget trivial
  | changeReaction =>
    simp only at h
    split at h
    · exact goes_done h
    · exact goes_of h htarget trivial
  | _ => exact goes_of h htarget trivial

/-- What a call does with the message that it has locked. -/
theorem goes_targeted {m : StoredMessage} (htarget : w.target = some message)
    (hfree : s.FreeRow (.message message)) (h : s.targeted d archived w m = some (db', t')) :
    Goes s (RoomTask.target w archived) db' t' := by
  have hrows : ∀ r ∈ w.targetRows, r ∈ (RoomTask.target w archived).holds ∨ s.FreeRow r := by
    intro r hr
    rw [ContentRequest.targetRows, htarget] at hr
    rcases mem_append.mp hr with hin | hin
    · exact .inl hin
    · obtain rfl : r = .message message := by simpa using hin
      exact .inr hfree
  have hallocate : ∀ r ∈ (allocate w none).holds,
      r ∈ (RoomTask.target w archived).holds ∨ s.FreeRow r := by
    intro r hr
    exact hrows r (by simpa [RoomTask.holds] using hr)
  unfold targeted at h
  cases w with
  | sendMessage => exact goes_of h hallocate trivial
  | sendThreadReply =>
    simp only at h
    split at h
    · exact goes_of h hallocate trivial
    · exact goes_done h
  | editMessage =>
    simp only at h
    split at h
    · exact goes_done h
    · split at h
      · exact goes_done h
      · split at h
        · exact goes_done h
        · split at h
          · exact goes_done h
          · exact goes_of h hallocate trivial
  | deleteMessage =>
    simp only at h
    split at h
    · exact goes_done h
    · split at h
      · exact goes_done h
      · split at h
        · exact goes_done h
        · split at h
          · exact goes_of h hrows trivial
          · exact goes_of h hallocate trivial
  | changeReaction =>
    simp only at h
    split at h
    · exact goes_done h
    · split at h
      · exact goes_done h
      · split at h
        · split at h
          · exact goes_done h
          · split at h
            · exact goes_done h
            · exact goes_of h hallocate trivial
        · split at h
          · exact goes_of h hallocate trivial
          · exact goes_done h
  | completeLinkPreview => exact goes_of h hrows rfl

/-- What the completion of a preview does with the row that it has locked. -/
theorem goes_previewed {preview : Ulid} {link : Option Ulid}
    (hfree : s.FreeRow (.linkPreview preview))
    (h : s.previewed (.completeLinkPreview message preview link) message preview link
      = some (db', t')) :
    Goes s (second (.completeLinkPreview message preview link) (.linkPreview preview)) db' t' := by
  unfold previewed at h
  split at h
  · exact goes_done h
  · next m hm =>
    split at h
    · exact goes_done h
    · next p hp =>
      split at h
      · exact goes_done h
      · next hstatus =>
        have hpending : p.status = .pending := by
          by_contra hne
          exact hstatus (.inl hne)
        split at h
        · refine goes_of h (fun r hr => ?_) ⟨rfl, m, p, hm, hp, hpending, by simp⟩
          rcases mem_append.mp hr with hin | hin
          · exact .inl hin
          · obtain rfl : r = .linkPreview preview := by simpa using hin
            exact .inr hfree
        · next hshown =>
          refine goes_of h (fun r hr => ?_) ⟨m, p, hm, hp, hpending, fun hsome => ?_⟩
          · rcases mem_cons.mp hr with rfl | hin
            · exact .inl (by simp [RoomTask.holds, ContentRequest.targetRows, ContentRequest.target])
            · obtain rfl : r = .linkPreview preview := by simpa using hin
              exact .inr hfree
          · by_contra hremoved
            exact hshown ⟨hsome, by simpa using hremoved⟩

/-- Numbers are only given where the flag is not set. -/
theorem numbered_eq_some (h : s.numbered row w = some numbers) :
    numbers.archived = false ∧ s.db.room.archived = false := by
  cases w with
  | sendMessage => exact allocateMessageSeq_eq_some h
  | sendThreadReply =>
    exact allocateThreadReplySeq_eq_some h
  | _ => exact allocateChangeSeq_eq_some h

/-! ## The invariant of the locks -/

/-- **What every step keeps**: a row is held by one call, every call knows what it has
read under its locks, and one huddle at most goes on. -/
structure Locked (s : RoomService) : Prop where
  apart : ∀ r, Apart (holding r) s.tasks
  knows : ∀ t ∈ s.tasks, t.Knows s.db
  single : ∀ huddle huddle' h h', s.db.huddles.lookup huddle = some h →
    s.db.huddles.lookup huddle' = some h' → h.ended = false → h'.ended = false → huddle = huddle'

theorem locked_of_new (h : s.New) : s.Locked where
  apart := fun r => by
    rw [h.2]
    exact Apart.nil
  knows := fun t ht => by
    rw [h.2] at ht
    cases ht
  single := fun huddle huddle' r r' hr => by
    rw [h.1] at hr
    cases (AList.lookup_empty huddle).symm.trans hr

variable (hs : s.Locked)
include hs

variable (ht : s.tasks[i]? = some t)
include ht

theorem Locked.eq_of_holds {j : ℕ} {r : RoomRow} (hu : s.tasks[j]? = some u) (hheld : r ∈ t.holds)
    (hheld' : r ∈ u.holds) : i = j :=
  hs.apart r i j t u () ht hu (holding_eq_some.mpr hheld) (holding_eq_some.mpr hheld')

theorem apart_set (hholds : ∀ r ∈ t'.holds, r ∈ t.holds ∨ s.FreeRow r) (r : RoomRow) :
    Apart (holding r) (s.tasks.set i t') := by
  refine (hs.apart r).set ht fun k hk => ?_
  refine (hholds r (holding_eq_some.mp hk)).imp holding_eq_some.mpr fun hfree u hu hheld => ?_
  exact hfree u hu (holding_eq_some.mp hheld)

/-- **A step that writes nothing** keeps it. -/
theorem Locked.goes (hgoes : Goes s t db' t') :
    Locked { db := db', tasks := s.tasks.set i t' } where
  apart := apart_set hs ht hgoes.holds
  knows := fun u hu => by
    rw [hgoes.db]
    rcases mem_set hu with hold | rfl
    · exact hs.knows u hold
    · exact hgoes.knows
  single := by
    rw [hgoes.db]
    exact hs.single

omit ht

omit hs

/-- What a call knows is not changed by a commit that leaves the rows which it holds. -/
theorem knows_frame (h : u.Knows s.db)
    (hroom : .room ∈ u.holds → db'.room = s.db.room ∧ db'.huddles = s.db.huddles)
    (hmessages : ∀ m, RoomRow.message m ∈ u.holds → ∀ row, s.db.messages.lookup m = some row →
      db'.messages.lookup m = some row) : u.Knows db' := by
  cases u with
  | second w => cases w <;> exact h
  | allocate w =>
    cases w with
    | completeLinkPreview message =>
      refine ⟨h.1, h.2.frame fun m hm => hmessages message ?_ m hm⟩
      simp [RoomTask.holds, ContentRequest.targetRows, ContentRequest.target]
    | _ => trivial
  | writing =>
    obtain ⟨hr, -⟩ := hroom (by simp [RoomTask.holds])
    exact ⟨h.1, hr ▸ h.2⟩
  | completing message =>
    exact h.frame fun m hm => hmessages message (by simp [RoomTask.holds]) m hm
  | archiveSet actor log archive numbers | touchMessage huddle message why numbers
  | touching =>
    obtain ⟨hr, -⟩ := hroom (by simp [RoomTask.holds])
    exact h.trans (congrArg RoomRecord.archived hr.symm)
  | archiving => exact h
  | joinStarted =>
    obtain ⟨hr, hhuddles⟩ := hroom (by simp [RoomTask.holds])
    refine ⟨h.1.trans (congrArg RoomRecord.archived hr.symm), ?_⟩
    rw [hhuddles]
    exact h.2
  | _ => trivial

/-- **A commit** keeps it: nobody else knew anything of what has changed. -/
theorem Locked.commits (hs : s.Locked) (ht : s.tasks[i]? = some t) (hholds : t'.holds = [])
    (hknows : t'.Knows db')
    (hroom : .room ∈ t.holds ∨ db'.room = s.db.room ∧ db'.huddles = s.db.huddles)
    (hframe : ∀ m, RoomRow.message m ∉ t.holds → ∀ row, s.db.messages.lookup m = some row →
      db'.messages.lookup m = some row)
    (hsingle : ∀ huddle huddle' h h', db'.huddles.lookup huddle = some h →
      db'.huddles.lookup huddle' = some h' → h.ended = false → h'.ended = false →
        huddle = huddle') :
    Locked { db := db', tasks := s.tasks.set i t' } where
  apart := apart_set hs ht fun r hr => absurd (hholds ▸ hr) not_mem_nil
  knows := fun u hu => by
    rcases exists_of_mem_set ht hu with ⟨j, hij, hj⟩ | rfl
    · refine knows_frame (hs.knows u (mem_of_getElem? hj)) (fun hr => ?_) fun m hm => ?_
      · exact hroom.resolve_left fun hheld => hij (hs.eq_of_holds ht hj hheld hr)
      · exact hframe m fun hheld => hij (hs.eq_of_holds ht hj hheld hm)
    · exact hknows
  single := hsingle

/-- **What a step can be**: a step that writes nothing, and keeps the huddles that the call is
about to end, or one of the commits. -/
inductive Outcome (s : RoomService) : RoomTask → RoomDatabase → RoomTask → Prop
  | goes {t t' : RoomTask} {db' : RoomDatabase} (h : Goes s t db' t')
      (hdue : ∀ huddle h, s.db.huddles.lookup huddle = some h → h.ended = false →
        t.due huddle → t'.due huddle) : Outcome s t db' t'
  | writing {w : ContentRequest} {row : Option RoomRow} {numbers : RoomRecord}
      {db' : RoomDatabase} (h : s.db.perform row numbers w = some db') :
      Outcome s (writing w row numbers) db' (done none)
  | completing {message preview : Ulid} {link : Option Ulid} :
      Outcome s (completing message preview link) (s.db.updateMessage message fun m => { m with
        linkPreviews := completeMessageLinkPreview preview link m.linkPreviews }) (done none)
  | archiving {actor log : Ulid} {archive : Bool} {numbers : RoomRecord} {db' : RoomDatabase}
      (h : s.db.setArchived numbers actor log archive = some db') :
      Outcome s (archiving actor log archive numbers) db' (if archive then endFind else done none)
  | touching {huddle message : Ulid} {why : HuddleTouch} {numbers : RoomRecord} :
      Outcome s (touching huddle message why numbers) (s.db.touch numbers huddle message why)
        (done none)
  | joinStarted {join : HuddleStart} {waited : Option Ulid} {numbers : RoomRecord}
      {db' : RoomDatabase} (h : s.db.startHuddle numbers join = some db') :
      Outcome s (joinStarted join waited numbers) db' (done none)

theorem Outcome.plain (h : Goes s t db' t') (hdue : ∀ huddle, ¬ t.due huddle) :
    Outcome s t db' t' :=
  .goes h fun huddle _ _ _ ht => absurd ht (hdue huddle)

theorem commits_eq_some {db : Option RoomDatabase}
    (h : commits db u = some (db', t')) : db = some db' ∧ t' = u := by
  obtain ⟨x, hx, heq⟩ := map_eq_some_iff.mp h
  cases heq
  exact ⟨hx, rfl⟩

/-- **Every step is one of these.** -/
theorem outcome_of_next (hs : s.Locked) (ht : t ∈ s.tasks)
    (hnext : s.next d empty t = some (db', t')) : Outcome s t db' t' := by
  have hnone : ∀ r ∈ ([] : List RoomRow), r ∈ t.holds ∨ s.FreeRow r :=
    nofun
  cases t with
  | access w =>
    refine .plain ?_ fun huddle => id
    simp only [next] at hnext
    split at hnext
    · next hactor =>
      cases w with
      | completeLinkPreview => exact goes_of hnext hnone trivial
      | _ => exact absurd hactor (by simp [ContentRequest.actor])
    · split at hnext
      · exact goes_done hnext
      · split at hnext
        · exact goes_of hnext hnone trivial
        · exact goes_done hnext
  | member =>
    refine .plain ?_ fun huddle => id
    simp only [next] at hnext
    split at hnext
    · next hfree => exact goes_accessed hfree hnext
    · cases hnext
  | target =>
    refine .plain ?_ fun huddle => id
    simp only [next] at hnext
    split at hnext
    · cases hnext
    · next message htarget =>
      split at hnext
      · next hfree =>
        split at hnext
        · exact goes_targeted htarget hfree hnext
        all_goals exact goes_done hnext
      · cases hnext
  | second w row =>
    refine .plain ?_ fun huddle => id
    have hknows := hs.knows _ ht
    simp only [next] at hnext
    by_cases hfree : s.FreeRow row
    · rw [if_pos hfree] at hnext
      cases w with
      | completeLinkPreview _ preview =>
        obtain rfl : row = .linkPreview preview := hknows
        exact goes_previewed hfree hnext
      | _ =>
        refine goes_of hnext (fun r hr => ?_) trivial
        rcases mem_append.mp hr with hin | hin
        · exact .inl hin
        · obtain rfl : r = row := by simpa using hin
          exact .inr hfree
    · rw [if_neg hfree] at hnext
      cases hnext
  | allocate w =>
    refine .plain ?_ fun huddle => id
    have hknows := hs.knows _ ht
    simp only [next] at hnext
    split at hnext
    · next hfree =>
      split at hnext
      · next numbers hnumbers =>
        refine goes_of hnext (fun r hr => ?_) (numbered_eq_some hnumbers)
        rcases mem_append.mp hr with hin | hin
        · exact .inl hin
        · obtain rfl : r = .room := by simpa using hin
          exact .inr hfree
      · cases w with
        | completeLinkPreview =>
          obtain ⟨rfl, hawaits⟩ := hknows
          refine goes_of hnext (fun r hr => .inl ?_) hawaits
          simpa [refused, RoomTask.holds, ContentRequest.targetRows, ContentRequest.target,
            ContentRequest.memberRows, ContentRequest.actor] using hr
        | _ => exact goes_of hnext hnone trivial
    · cases hnext
  | writing =>
    obtain ⟨hdb, rfl⟩ := commits_eq_some hnext
    exact .writing hdb
  | completing =>
    obtain ⟨hdb, rfl⟩ := commits_eq_some hnext
    cases hdb
    exact .completing
  | archiveAccess =>
    refine .plain ?_ fun huddle => id
    simp only [next] at hnext
    split at hnext
    · exact goes_done hnext
    · split at hnext
      · exact goes_done hnext
      · split at hnext
        · exact goes_done hnext
        · split at hnext
          · exact goes_done hnext
          · split at hnext
            all_goals
              split at hnext
              · exact goes_of hnext hnone trivial
              · exact goes_done hnext
  | archiveLog =>
    refine .plain ?_ fun huddle => id
    simp only [next] at hnext
    split at hnext
    · next hfree =>
      refine goes_of hnext (fun r hr => .inr ?_) rfl
      obtain rfl : r = .room := mem_singleton.mp hr
      exact hfree
    · cases hnext
  | archiveSet =>
    refine .plain ?_ fun huddle => id
    simp only [next] at hnext
    split at hnext
    · exact goes_done hnext
    · exact goes_of hnext (fun r hr => .inl hr) rfl
  | archiving =>
    obtain ⟨hdb, rfl⟩ := commits_eq_some hnext
    exact .archiving hdb
  | endFind =>
    simp only [next] at hnext
    split at hnext
    · next huddle h hactive =>
      obtain ⟨hrow, hgoing⟩ := activeHuddle_eq_some hactive
      refine .goes (goes_of hnext hnone trivial) fun huddle' h' hrow' hgoing' _ => ?_
      cases hnext
      exact hs.single huddle huddle' h h' hrow hrow' hgoing hgoing'
    · next hactive =>
      refine .goes (goes_done hnext) fun huddle' h' hrow' hgoing' _ => ?_
      cases (activeHuddle_eq_none hactive hrow').symm.trans hgoing'
  | endWait huddle =>
    simp only [next] at hnext
    split at hnext
    · next hfree =>
      split at hnext
      · next message user hrow =>
        refine .goes (goes_of hnext (fun r hr => .inr ?_) trivial) fun huddle' h' _ _ hdue => ?_
        · obtain rfl : r = .huddle huddle := mem_singleton.mp hr
          exact hfree
        · cases hnext
          exact hdue
      · next hskip =>
        refine .goes (goes_done hnext) fun huddle' h' hrow' hgoing' hdue => ?_
        obtain rfl : huddle = huddle' := hdue
        obtain ⟨message, user, ended⟩ := h'
        obtain rfl : ended = false := hgoing'
        exact absurd hrow' (hskip message user)
    · cases hnext
  | emptyLock huddle =>
    refine .plain ?_ fun huddle => id
    simp only [next] at hnext
    split at hnext
    · next hfree =>
      split at hnext
      · refine goes_of hnext (fun r hr => .inr ?_) trivial
        obtain rfl : r = .huddle huddle := mem_singleton.mp hr
        exact hfree
      · exact goes_done hnext
    · cases hnext
  | emptyRead huddle =>
    refine .plain ?_ fun huddle => id
    simp only [next] at hnext
    split at hnext
    · exact goes_of hnext (fun r hr => .inl hr) trivial
    · exact goes_done hnext
  | touchNumber _ _ why =>
    simp only [next] at hnext
    split at hnext
    · next hfree =>
      refine .goes (goes_of hnext (fun r hr => ?_) rfl) fun huddle' h' _ _ hdue => ?_
      · simp only [RoomTask.holds, mem_append, mem_cons, not_mem_nil, or_false] at hr ⊢
        rcases hr with hin | hin | rfl
        · exact .inl (.inl hin)
        · exact .inl (.inr hin)
        · exact .inr hfree
      · cases hnext
        cases why <;> exact hdue
    · cases hnext
  | touchMessage _ _ why =>
    have hknows := hs.knows _ ht
    simp only [next] at hnext
    split at hnext
    · next hfree =>
      refine .goes (goes_of hnext (fun r hr => ?_) hknows) fun huddle' h' _ _ hdue => ?_
      · simp only [RoomTask.holds, mem_append, mem_cons, not_mem_nil, or_false] at hr ⊢
        rcases hr with hin | hin | hin | rfl
        · exact .inl (.inl hin)
        · exact .inl (.inr (.inl hin))
        · exact .inl (.inr (.inr hin))
        · exact .inr hfree
      · cases hnext
        cases why <;> exact hdue
    · cases hnext
  | touching =>
    obtain ⟨hdb, rfl⟩ := commits_eq_some hnext
    cases hdb
    exact .touching
  | joinCheck =>
    refine .plain ?_ fun huddle => id
    simp only [next] at hnext
    split at hnext
    · exact goes_done hnext
    · split at hnext
      · exact goes_done hnext
      · exact goes_of hnext hnone trivial
  | joinAccess => exact .plain (goes_of hnext hnone trivial) fun huddle => id
  | joinMember join =>
    refine .plain ?_ fun huddle => id
    simp only [next] at hnext
    split at hnext
    · next hfree =>
      split at hnext
      · exact goes_done hnext
      · split at hnext
        · exact goes_done hnext
        · refine goes_of hnext (fun r hr => .inr ?_) trivial
          obtain rfl : r = .roomMember join.user := mem_singleton.mp hr
          exact hfree
    · cases hnext
  | joinFind =>
    refine .plain ?_ fun huddle => id
    simp only [next] at hnext
    split at hnext
    · exact goes_of hnext (fun r hr => .inl hr) trivial
    · exact goes_of hnext (fun r hr => .inl hr) trivial
  | joinWait join again huddle =>
    refine .plain ?_ fun huddle => id
    have hrows : ∀ r ∈ [RoomRow.roomMember join.user, .huddle huddle],
        s.FreeRow (.huddle huddle) → r ∈ (joinWait join again huddle).holds ∨ s.FreeRow r := by
      intro r hr hfree
      rcases mem_cons.mp hr with rfl | hin
      · exact .inl (.head _)
      · obtain rfl : r = .huddle huddle := mem_singleton.mp hin
        exact .inr hfree
    simp only [next] at hnext
    split at hnext
    · next hfree =>
      split at hnext
      · exact goes_of hnext (fun r hr => hrows r hr hfree) trivial
      · exact goes_of hnext (fun r hr => hrows r hr hfree) trivial
    · cases hnext
  | joinStart =>
    refine .plain ?_ fun huddle => id
    simp only [next] at hnext
    split at hnext
    · next hfree =>
      split at hnext
      · exact goes_done hnext
      · next numbers hnumbers =>
        have hflag : numbers.archived = s.db.room.archived := by
          split at hnumbers
          · obtain ⟨hn, hr⟩ := allocateMessageSeq_eq_some hnumbers
            exact hn.trans hr.symm
          · exact some.inj hnumbers ▸ rfl
        split at hnext
        · split at hnext
          · exact goes_done hnext
          · exact goes_of hnext hnone trivial
        · next hactive =>
          refine goes_of hnext (fun r hr => ?_) ⟨hflag, fun huddle h => activeHuddle_eq_none hactive⟩
          rcases mem_append.mp hr with hin | hin
          · exact .inl hin
          · obtain rfl : r = .room := mem_singleton.mp hin
            exact .inr hfree
    · cases hnext
  | joinStarted =>
    obtain ⟨hdb, rfl⟩ := commits_eq_some hnext
    exact .joinStarted hdb
  | joinEnter _ huddle =>
    refine .plain ?_ fun huddle => id
    simp only [next] at hnext
    split at hnext
    · exact goes_done hnext
    · exact goes_of hnext (fun r hr => .inl hr) trivial
  | done => exact absurd hnext (by simp [next])

/-! ## Commits -/

/-- **What a call has written that took numbers**: the room's row, and messages that it has
locked, or that are new. -/
theorem perform_eq_some {db : RoomDatabase}
    (h : db.perform row numbers w = some db') : db'.room = numbers ∧ db'.huddles = db.huddles ∧
      ∀ m, RoomRow.message m ∉ w.targetRows ++ row.toList → ∀ x,
        db.messages.lookup m = some x → db'.messages.lookup m = some x := by
  have hne : ∀ m k, w.target = some k → RoomRow.message m ∉ w.targetRows ++ row.toList → m ≠ k := by
    rintro m k hk hnot rfl
    exact hnot (by simp [ContentRequest.targetRows, hk])
  unfold perform at h
  cases w with
  | sendMessage =>
    obtain ⟨hroom, hhuddles⟩ := createMessage_same h
    exact ⟨hroom, hhuddles, fun m _ x hx => lookup_createMessage h hx⟩
  | sendThreadReply _ _ _ root =>
    obtain ⟨hroom, hhuddles⟩ := createMessage_same h
    refine ⟨hroom.trans (updateMessage_room _ _ _), hhuddles.trans (updateMessage_huddles _ _ _),
      fun m hm x hx => lookup_createMessage h ?_⟩
    rw [lookup_updateMessage _ _ (hne m root rfl hm)]
    exact hx
  | editMessage _ message =>
    cases h
    refine ⟨updateMessage_room _ _ _, updateMessage_huddles _ _ _, fun m hm x hx => ?_⟩
    rw [lookup_updateMessage _ _ (hne m message rfl hm)]
    exact hx
  | changeReaction _ message =>
    cases h
    refine ⟨updateMessage_room _ _ _, updateMessage_huddles _ _ _, fun m hm x hx => ?_⟩
    rw [lookup_updateMessage _ _ (hne m message rfl hm)]
    exact hx
  | completeLinkPreview message =>
    cases h
    refine ⟨updateMessage_room _ _ _, updateMessage_huddles _ _ _, fun m hm x hx => ?_⟩
    rw [lookup_updateMessage _ _ (hne m message rfl hm)]
    exact hx
  | deleteMessage _ message =>
    simp only at h
    split at h
    · next root =>
      cases h
      refine ⟨by simp, by simp, fun m hm x hx => ?_⟩
      have hroot : m ≠ root := by
        rintro rfl
        exact hm (by simp)
      rw [lookup_updateMessage _ _ hroot, lookup_updateMessage _ _ (hne m message rfl hm)]
      exact hx
    · cases h
      refine ⟨updateMessage_room _ _ _, updateMessage_huddles _ _ _, fun m hm x hx => ?_⟩
      rw [lookup_updateMessage _ _ (hne m message rfl hm)]
      exact hx

/-- **What the change of a huddle's message has written.** -/
theorem touch_eq (db : RoomDatabase) (numbers : RoomRecord) (huddle message : Ulid)
    (why : HuddleTouch) : (db.touch numbers huddle message why).room = numbers ∧
      (∀ k h, (db.touch numbers huddle message why).huddles.lookup k = some h → h.ended = false →
        db.huddles.lookup k = some h ∧ (why = .ended → k ≠ huddle)) ∧
      (∀ m, m ≠ message → (db.touch numbers huddle message why).messages.lookup m
        = db.messages.lookup m) ∧
      (db.touch numbers huddle message why).content = db.content := by
  have hcontent : ({ db with room := numbers }.updateMessage message fun m => { m with
      changeSeq := numbers.lastChangeSeq }).content = db.content :=
    content_updateMessage fun m _ => rfl
  have hroom := updateMessage_room { db with room := numbers } message fun m => { m with
    changeSeq := numbers.lastChangeSeq }
  have hhuddles := updateMessage_huddles { db with room := numbers } message fun m => { m with
    changeSeq := numbers.lastChangeSeq }
  unfold touch
  cases why with
  | entered =>
    refine ⟨hroom, fun k h hk hgoing => ⟨?_, nofun⟩,
      fun m hm => lookup_updateMessage _ _ hm, (content_congr rfl).trans hcontent⟩
    rw [← hk]
    exact (congrArg (fun hs => AList.lookup k hs) hhuddles).symm
  | ended =>
    cases hrow : db.huddles.lookup huddle with
    | none =>
      refine ⟨hroom, fun k h hk hgoing => ?_, fun m hm => lookup_updateMessage _ _ hm, hcontent⟩
      have hk' : db.huddles.lookup k = some h := by
        rw [← hk]
        exact (congrArg (fun hs => AList.lookup k hs) hhuddles).symm
      refine ⟨hk', fun _ => ?_⟩
      rintro rfl
      cases hrow.symm.trans hk'
    | some =>
      refine ⟨hroom, fun k h hk hgoing => ?_, fun m hm => lookup_updateMessage _ _ hm,
        (content_congr rfl).trans hcontent⟩
      by_cases hkh : k = huddle
      · subst hkh
        simp only [AList.lookup_insert] at hk
        rw [← some.inj hk] at hgoing
        cases hgoing
      · simp only [AList.lookup_insert_ne hkh] at hk
        rw [hhuddles] at hk
        exact ⟨hk, fun _ => hkh⟩

/-- **What a huddle that is started has written.** -/
theorem startHuddle_eq_some {db : RoomDatabase} {join : HuddleStart}
    (h : db.startHuddle numbers join = some db') : db'.room = numbers ∧
      db'.huddles = db.huddles.insert join.huddle ⟨join.message, join.user, false⟩ ∧
      (∀ m x, db.messages.lookup m = some x → db'.messages.lookup m = some x) ∧
      db'.content = db.content := by
  unfold startHuddle at h
  split_ifs at h
  obtain ⟨hroom, hhuddles⟩ := createMessage_same h
  exact ⟨hroom, hhuddles, fun m x hx => lookup_createMessage h hx,
    (content_createMessage rfl h).trans (content_congr rfl)⟩

/-- **What setting the flag has written.** -/
theorem setArchived_eq_some {db : RoomDatabase} {actor log : Ulid}
    {archive : Bool} (h : db.setArchived numbers actor log archive = some db') :
    db'.room = numbers ∧ db'.huddles = db.huddles ∧
      (∀ m x, db.messages.lookup m = some x → db'.messages.lookup m = some x) ∧
      db'.content = db.content := by
  obtain ⟨hroom, hhuddles⟩ := createMessage_same h
  exact ⟨hroom, hhuddles, fun m x hx => lookup_createMessage h hx,
    (content_createMessage rfl h).trans (content_congr rfl)⟩

include hs

include ht

/-- **Every step of a call keeps the invariant of the locks.** -/
theorem Locked.outcome (h : Outcome s t db' t') :
    Locked { db := db', tasks := s.tasks.set i t' } := by
  have hknows := hs.knows t (mem_of_getElem? ht)
  cases h with
  | goes hgoes => exact hs.goes ht hgoes
  | writing h =>
    obtain ⟨-, hhuddles, hframe⟩ := perform_eq_some h
    refine hs.commits ht rfl trivial (.inl (by simp [RoomTask.holds])) (fun m hm x hx => ?_) ?_
    · exact hframe m (fun hin => hm (mem_append_left _ hin)) x hx
    · rw [hhuddles]
      exact hs.single
  | @completing message preview link =>
    refine hs.commits ht rfl trivial
      (.inr ⟨updateMessage_room _ _ _, updateMessage_huddles _ _ _⟩) (fun m hm x hx => ?_) ?_
    · have hne : m ≠ message := by
        rintro rfl
        exact hm (by simp [RoomTask.holds])
      rw [lookup_updateMessage _ _ hne]
      exact hx
    · rw [updateMessage_huddles]
      exact hs.single
  | @archiving actor log archive numbers db' h =>
    obtain ⟨-, hhuddles, hframe, -⟩ := setArchived_eq_some h
    refine hs.commits ht ?_ ?_ (.inl (by simp [RoomTask.holds])) (fun m _ x hx => hframe m x hx) ?_
    · cases archive <;> rfl
    · cases archive <;> trivial
    · rw [hhuddles]
      exact hs.single
  | @touching huddle message why numbers =>
    obtain ⟨-, hhuddles, hframe, -⟩ := touch_eq s.db numbers huddle message why
    refine hs.commits ht rfl trivial (.inl (by simp [RoomTask.holds])) (fun m hm x hx => ?_) ?_
    · have hne : m ≠ message := by
        rintro rfl
        exact hm (by simp [RoomTask.holds])
      rw [hframe m hne]
      exact hx
    · intro k k' h h' hk hk' hgoing hgoing'
      exact hs.single k k' h h' (hhuddles k h hk hgoing).1 (hhuddles k' h' hk' hgoing').1
        hgoing hgoing'
  | @joinStarted join waited numbers db' h =>
    obtain ⟨-, hhuddles, hframe, -⟩ := startHuddle_eq_some h
    refine hs.commits ht rfl trivial (.inl (by simp [RoomTask.holds]))
      (fun m _ x hx => hframe m x hx) ?_
    -- before there was none that goes on
    have hthis : ∀ k row, db'.huddles.lookup k = some row → row.ended = false →
        k = join.huddle := by
      intro k row hk hgoing
      by_contra hne
      rw [hhuddles, AList.lookup_insert_ne hne] at hk
      cases (hknows.2 k row hk).symm.trans hgoing
    intro k k' row row' hk hk' hgoing hgoing'
    exact (hthis k row hk hgoing).trans (hthis k' row' hk' hgoing').symm

omit ht

theorem Locked.starts (hstarts : Starts t) : Locked { s with tasks := s.tasks ++ [t] } := by
  have hplain : t.holds = [] ∧ t.Knows s.db := by
    unfold Starts at hstarts
    split at hstarts <;> first | exact ⟨rfl, trivial⟩ | exact absurd hstarts id
  refine ⟨fun r => (hs.apart r).append_one ?_, fun u hu => ?_, hs.single⟩
  · unfold holding
    rw [hplain.1, if_neg not_mem_nil]
  · rcases mem_append.mp hu with hold | hnew
    · exact hs.knows u hold
    · rw [mem_singleton.mp hnew]
      exact hplain.2

include ht

theorem Locked.fails : Locked { s with tasks := s.tasks.set i (done error) } :=
  hs.goes ht ⟨rfl, fun r hr => absurd hr not_mem_nil, trivial⟩

omit ht

/-- **A step of the room**, by what happens. -/
theorem Locked.act (hact : s.act d a = some s') :
    s'.Locked := by
  unfold RoomService.act at hact
  cases a with
  | start =>
    simp only at hact
    split_ifs at hact with hstarts
    cases hact
    exact hs.starts hstarts
  | step =>
    simp only at hact
    split at hact
    · cases hact
    · next t ht =>
      split at hact
      · cases hact
      · next db' t' hnext =>
        cases hact
        exact hs.outcome ht (outcome_of_next hs (mem_of_getElem? ht) hnext)
  | fail =>
    simp only at hact
    split at hact
    · cases hact
    · cases hact
    · next t ht =>
      cases hact
      exact hs.fails ht

/-- **No step changes what users wrote in an archived room.** -/
theorem Locked.content_eq (harchived : s.db.room.archived = true) (hact : s.act d a = some s') : s'.db.content = s.db.content := by
  unfold RoomService.act at hact
  cases a with
  | start =>
    simp only at hact
    split_ifs at hact
    exact some.inj hact ▸ rfl
  | fail =>
    simp only at hact
    split at hact
    · cases hact
    · cases hact
    · exact some.inj hact ▸ rfl
  | step =>
    simp only at hact
    split at hact
    · cases hact
    · next t ht =>
      split at hact
      · cases hact
      · next db' t' hnext =>
        cases hact
        have hknows := hs.knows t (mem_of_getElem? ht)
        show db'.content = s.db.content
        cases outcome_of_next hs (mem_of_getElem? ht) hnext with
        | goes hgoes => rw [hgoes.db]
        | writing => cases harchived.symm.trans hknows.2
        | @completing message preview link =>
          obtain ⟨m₀, p, hm₀, hfind, hpending, hremoved⟩ := hknows
          refine content_updateMessage fun m hm => ?_
          obtain rfl := some.inj (hm₀.symm.trans hm)
          unfold StoredMessage.shown
          simp only [shown_completeMessageLinkPreview hfind hpending hremoved]
        | archiving h => exact (setArchived_eq_some h).2.2.2
        | touching => exact (touch_eq _ _ _ _ _).2.2.2
        | joinStarted h => exact (startHuddle_eq_some h).2.2.2

/-! ## The huddle of an archived room -/

omit hs

/-- Some call is about to end a huddle. -/
def Doomed (s : RoomService) (huddle : Ulid) : Prop := ∃ t ∈ s.tasks, t.due huddle

instance (s : RoomService) (huddle : Ulid) : Decidable (s.Doomed huddle) := by
  unfold Doomed
  infer_instance

/-- **A huddle that goes on in an archived room is about to be ended.** -/
def Pursued (s : RoomService) : Prop :=
  s.db.room.archived = true → ∀ huddle h, s.db.huddles.lookup huddle = some h →
    h.ended = false → s.Doomed huddle

/-- What a run must not do: commit a huddle in an archived room where no call is about to end
it, or lose the transaction of the call that was about to. -/
def Safe (s : RoomService) : RoomServiceAction → Prop
  | .start _ => True
  | .step i _ =>
    match s.tasks[i]? with
    | some (joinStarted join _ _) => s.db.room.archived = true → s.Doomed join.huddle
    | _ => True
  | .fail i => s.db.room.archived = true → ∀ e ∈ s.db.huddles.entries, e.2.ended = false →
      Doomed { s with tasks := s.tasks.set i (done none) } e.1

instance (s : RoomService) (a : RoomServiceAction) : Decidable (s.Safe a) := by
  unfold Safe
  split
  · infer_instance
  · split <;> infer_instance
  · infer_instance

/-- A huddle stays doomed while the call that steps goes on to end it, or was not to. -/
theorem Doomed.set {huddle : Ulid} (h : s.Doomed huddle) (ht : s.tasks[i]? = some t)
    (hdue : t.due huddle → t'.due huddle) :
    Doomed { db := db', tasks := s.tasks.set i t' } huddle := by
  obtain ⟨u, hu, hudue⟩ := h
  obtain ⟨j, hj⟩ := mem_iff_getElem?.mp hu
  by_cases hij : i = j
  · subst hij
    obtain rfl := some.inj (ht.symm.trans hj)
    refine ⟨t', mem_of_getElem? (i := i) ?_, hdue hudue⟩
    rw [getElem?_set ht, if_pos rfl]
  · refine ⟨u, mem_of_getElem? (i := j) ?_, hudue⟩
    rw [getElem?_set ht, if_neg hij, hj]

/-- **Every step of a call** leaves it so, unless it commits a huddle that nobody is about to
end. -/
theorem Pursued.outcome (hp : s.Pursued) (hs : s.Locked) (ht : s.tasks[i]? = some t)
    (hsafe : s.Safe (.step i empty)) (h : Outcome s t db' t') :
    Pursued { db := db', tasks := s.tasks.set i t' } := by
  have hknows := hs.knows t (mem_of_getElem? ht)
  intro harchived huddle row hrow hgoing
  change db'.room.archived = true at harchived
  change db'.huddles.lookup huddle = some row at hrow
  cases h with
  | goes hgoes hdue =>
    rw [hgoes.db] at harchived hrow
    exact (hp harchived huddle row hrow hgoing).set ht (hdue huddle row hrow hgoing)
  | writing h =>
    rw [(perform_eq_some h).1, hknows.1] at harchived
    cases harchived
  | completing =>
    rw [updateMessage_room] at harchived
    rw [updateMessage_huddles] at hrow
    exact (hp harchived huddle row hrow hgoing).set ht fun hdue => hdue
  | @archiving actor log archive numbers db' h =>
    rw [(setArchived_eq_some h).1, show numbers.archived = archive from hknows] at harchived
    subst harchived
    refine ⟨endFind, mem_of_getElem? (i := i) ?_, trivial⟩
    show (s.tasks.set i _)[i]? = _
    rw [getElem?_set ht, if_pos rfl, if_pos rfl]
  | @touching huddle' message why numbers =>
    obtain ⟨hroom, hhuddles, -, -⟩ := touch_eq s.db numbers huddle' message why
    rw [hroom, show numbers.archived = s.db.room.archived from hknows] at harchived
    obtain ⟨hrow, hother⟩ := hhuddles huddle row hrow hgoing
    refine (hp harchived huddle row hrow hgoing).set ht fun hdue => ?_
    cases why with
    | ended => exact hother rfl hdue.symm
    | entered => exact hdue
  | @joinStarted join waited numbers db' h =>
    obtain ⟨hroom, hhuddles, -, -⟩ := startHuddle_eq_some h
    rw [hroom, hknows.1] at harchived
    rw [hhuddles] at hrow
    by_cases hthis : huddle = join.huddle
    · simp only [Safe, ht] at hsafe
      exact hthis ▸ (hsafe harchived).set ht fun hdue => hdue
    · rw [AList.lookup_insert_ne hthis] at hrow
      exact (hp harchived huddle row hrow hgoing).set ht fun hdue => hdue

/-- **A step of the room** that is safe leaves it so. -/
theorem Pursued.act (hp : s.Pursued) (hs : s.Locked) {a : RoomServiceAction} (hsafe : s.Safe a)
    (hact : s.act d a = some s') : s'.Pursued := by
  unfold RoomService.act at hact
  cases a with
  | start =>
    simp only at hact
    split_ifs at hact with hstarts
    cases hact
    intro harchived huddle h hrow hgoing
    obtain ⟨u, hu, hdue⟩ := hp harchived huddle h hrow hgoing
    exact ⟨u, mem_append_left _ hu, hdue⟩
  | step =>
    simp only at hact
    split at hact
    · cases hact
    · next t ht =>
      split at hact
      · cases hact
      · next db' t' hnext =>
        cases hact
        exact hp.outcome hs ht hsafe (outcome_of_next hs (mem_of_getElem? ht) hnext)
  | fail i =>
    simp only at hact
    split at hact
    · cases hact
    · cases hact
    · next t ht =>
      cases hact
      intro harchived huddle h hrow hgoing
      obtain ⟨u, hu, hdue⟩ := hsafe harchived ⟨huddle, h⟩ (AList.mem_lookup_iff.mp hrow) hgoing
      rcases exists_of_mem_set ht hu with ⟨j, hij, hj⟩ | rfl
      · refine ⟨u, mem_of_getElem? (i := j) ?_, hdue⟩
        rw [getElem?_set ht, if_neg hij, hj]
      · exact absurd hdue id

theorem locked_of_runs (h : (system d).ReachableBy Safe s) : s.Locked ∧ s.Pursued := by
  refine h.invariant (I := fun s => s.Locked ∧ s.Pursued) (fun s hnew => ?_) ?_
  · refine ⟨locked_of_new hnew, fun _ huddle h hrow => ?_⟩
    rw [hnew.1] at hrow
    cases (AList.lookup_empty huddle).symm.trans hrow
  · exact fun s a s' hs hsafe hstep => ⟨hs.1.act hstep, hs.2.act hs.1 hsafe hstep⟩

/-- **An archived room rests**: no step changes what users wrote in it, and when no call is in
progress it has no huddle that goes on. -/
theorem archived_room_rests (h : (system d).ReachableBy Safe s)
    (harchived : s.db.room.archived = true) :
    (∀ a s', s.act d a = some s' → s'.db.content = s.db.content) ∧
      (s.AtRest → ∀ huddle row, s.db.huddles.lookup huddle = some row → row.ended = true) := by
  obtain ⟨hs, hp⟩ := locked_of_runs h
  refine ⟨fun a s' hact => hs.content_eq harchived hact, fun hrest huddle row hrow => ?_⟩
  by_contra hgoing
  obtain ⟨t, ht, hdue⟩ := hp harchived huddle row hrow (Bool.eq_false_of_not_eq_true hgoing)
  -- a call that is over ends nothing
  obtain ⟨error, rfl⟩ := hrest t ht
  exact hdue

/-- A public room of members in which nothing was written yet. -/
def channel : RoomSetting := ⟨.roomPublic, false, fun _ => ⟨.member, true⟩⟩

def quietChannel : RoomService := ⟨⟨⟨false, 0, 0, 0⟩, ∅, ∅, []⟩, []⟩

/-- A call that is alone, for as many steps. -/
def turns (i n : ℕ) : List RoomServiceAction := List.replicate n (.step i false)

/-- **A huddle that is ended, and an edit that is refused**: a message is sent and a huddle
started, the message is about to be edited when the room is archived, and the edit goes on
after that. -/
theorem edit_meets_archive :
    ∃ s : RoomService, s.tasks[2]? = some (done (some .roomArchived)) ∧
      s.db.huddles.lookup 50 = some ⟨60, 1, true⟩ ∧
      s.db.content 61 = some ⟨1, "hello", none, false, 0, [], []⟩ ∧
      (∀ a s', s.act channel a = some s' → s'.db.content = s.db.content) ∧
      ∀ huddle row, s.db.huddles.lookup huddle = some row → row.ended = true := by
  have hrun : ((system channel).runBy Safe quietChannel
      ([.start (access (sendMessage 1 80 61 "hello" []))] ++ turns 0 4 ++
        [.start (joinCheck ⟨1, 50, 60⟩)] ++ turns 1 6 ++
        [.start (access (editMessage 1 61 "bye" [] []))] ++ turns 2 3 ++
        [.start (archiveAccess 2 70 true)] ++ turns 3 9 ++ turns 2 1)).any
      (fun s => decide (s.AtRest ∧ s.db.room.archived = true ∧
        s.tasks[2]? = some (done (some .roomArchived)) ∧
        s.db.huddles.lookup 50 = some ⟨60, 1, true⟩ ∧
        s.db.content 61 = some ⟨1, "hello", none, false, 0, [], []⟩)) = true := by decide +kernel
  obtain ⟨s, hreach, htest⟩ := TransitionSystem.exists_of_runBy hrun ⟨rfl, rfl⟩
  obtain ⟨hrest, harchived, hedit, hhuddle, hcontent⟩ := of_decide_eq_true htest
  have hrests := archived_room_rests
    hreach harchived
  exact ⟨s, hedit, hhuddle, hcontent, hrests.1, hrests.2 hrest⟩

/-- **A huddle goes on in an archived room**: a join has read the room before it is archived, and
starts a huddle after the call that archived it has looked for one. -/
theorem huddle_in_archived_room :
    ∃ s, (system channel).Reachable s ∧ s.AtRest ∧ s.db.room.archived = true ∧
      s.db.huddles.lookup 50 = some ⟨60, 1, false⟩ := by
  have hrun : ((system channel).run quietChannel
      ([.start (joinCheck ⟨1, 50, 60⟩)] ++ turns 0 4 ++
        [.start (archiveAccess 2 70 true)] ++ turns 1 5 ++ turns 0 2)).any
      (fun s => decide (s.AtRest ∧ s.db.room.archived = true ∧
        s.db.huddles.lookup 50 = some ⟨60, 1, false⟩)) = true := by decide +kernel
  obtain ⟨s, hreach, htest⟩ := TransitionSystem.exists_of_run hrun ⟨rfl, rfl⟩
  exact ⟨s, hreach, of_decide_eq_true htest⟩

end RoomService

end Hibari
