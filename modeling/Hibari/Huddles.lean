import Hibari.Message
import Hibari.Delivery

/-!
# The huddle of a room

A huddle is announced as a whole: every `huddle.updated` carries the state of
the room's huddle with its version, and `null` when it is over. Versions order
the states of one huddle, and `newerHuddle` drops an old one. The end of a
huddle has neither id nor version, and two huddles have no versions to
compare, so a notice about another huddle – or about none – is always
believed.

That is enough for the room to converge when nothing else arrives after the
final state (`huddle_converges_iff`), and not more: a snapshot that is delayed past
the end of its huddle starts the huddle again.
-/

namespace Hibari

open List Option Function

/-- Someone in a huddle. -/
structure HuddleParticipant where
  userId : Ulid
  muted : Bool
  camera : Bool
  screen : Bool
  deriving DecidableEq

/-- The state of a room's huddle. -/
structure RoomHuddle where
  id : Ulid
  roomId : Ulid
  messageId : Ulid
  startedAt : DateTime
  version : ℕ
  participants : List HuddleParticipant
  joiningSoon : List Ulid
  deriving DecidableEq

/-- A call that is ringing. -/
structure HuddleRing where
  roomId : Ulid
  huddleId : Ulid
  callerId : Ulid
  deriving DecidableEq

/-- The state that a room's `huddle.updated` announces: no huddle when it is
over. -/
structure HuddleUpdatedData where
  roomId : Ulid
  huddle : Option RoomHuddle
  deriving DecidableEq

/-- Of the huddle at hand and the one that arrived, the newer. The end is
always accepted, and so is another huddle; the same huddle is when its version
is newer. -/
def newerHuddle (current incoming : Option RoomHuddle) : Option RoomHuddle :=
  match incoming with
  | none => none
  | some new =>
    match current with
    | some old => if old.id = new.id ∧ new.version ≤ old.version then some old else some new
    | none => some new

/-- What the store has of huddles: the huddle of each room it knows, and the
call that is ringing. -/
structure HuddleStore where
  userId : Ulid
  rooms : Ulid → Option (Option RoomHuddle)
  huddleRing : Option HuddleRing

namespace HuddleStore

/-- The huddle of a room, if there is a room and a huddle in it. -/
def current (s : HuddleStore) (roomId : Ulid) : Option RoomHuddle := (s.rooms roomId).join

/-- Change the huddle of a room that is known. -/
def patchRoom (s : HuddleStore) (roomId : Ulid) (recipe : Option RoomHuddle → Option RoomHuddle) :
    HuddleStore :=
  match s.rooms roomId with
  | none => s
  | some huddle => { s with rooms := Function.update s.rooms roomId (some (recipe huddle)) }

/-- Stop ringing. -/
def dismissHuddleRing (s : HuddleStore) : HuddleStore := { s with huddleRing := none }

/-- Whether a call is over: its huddle is, or the user is in it, on any
device. -/
def ringOver (s : HuddleStore) (ring : HuddleRing) : Bool :=
  match s.current ring.roomId with
  | none => true
  | some huddle =>
    decide (huddle.id ≠ ring.huddleId)
      || huddle.participants.any (fun p => decide (p.userId = s.userId))

/-- Stop the ringing of a room when its call is over. -/
def settleRing (s : HuddleStore) (roomId : Ulid) : HuddleStore :=
  match s.huddleRing with
  | none => s
  | some ring => if ring.roomId = roomId ∧ s.ringOver ring then s.dismissHuddleRing else s

/-- Take in a `huddle.updated`. -/
def receiveHuddleUpdated (s : HuddleStore) (data : HuddleUpdatedData) : HuddleStore :=
  (s.patchRoom data.roomId (newerHuddle · data.huddle)).settleRing data.roomId

@[simp] theorem rooms_settleRing (s : HuddleStore) (roomId : Ulid) :
    (s.settleRing roomId).rooms = s.rooms := by
  unfold settleRing
  split
  · rfl
  · split <;> rfl

theorem rooms_patchRoom (s : HuddleStore) (roomId : Ulid)
    (recipe : Option RoomHuddle → Option RoomHuddle) :
    (s.patchRoom roomId recipe).rooms = update s.rooms roomId ((s.rooms roomId).map recipe) := by
  unfold patchRoom
  split
  · next h => rw [h, map_none, ← h, update_eq_self]
  · next h => rw [h, map_some]

theorem rooms_receiveHuddleUpdated (s : HuddleStore) (data : HuddleUpdatedData) :
    (s.receiveHuddleUpdated data).rooms = update s.rooms data.roomId
          ((s.rooms data.roomId).map (newerHuddle · data.huddle)) := by
  rw [receiveHuddleUpdated, rooms_settleRing, rooms_patchRoom]

end HuddleStore

/-! ## One room

The notices of one room fold into its huddle, whatever arrives for other
rooms. -/

/-- What is delivered for a room. -/
def noticesOf (roomId : Ulid) (notices : List HuddleUpdatedData) : List (Option RoomHuddle) :=
  (notices.filter (fun data => decide (data.roomId = roomId))).map (·.huddle)

/-- **A room is the fold of its own notices.** -/
theorem rooms_foldl_receiveHuddleUpdated (roomId : Ulid) (notices : List HuddleUpdatedData)
    {s : HuddleStore} {start : Option RoomHuddle} (hstart : s.rooms roomId = some start) :
    (notices.foldl HuddleStore.receiveHuddleUpdated s).rooms roomId
      = some ((noticesOf roomId notices).foldl newerHuddle start) := by
  induction notices generalizing s start with
  | nil => exact hstart
  | cons data _ ih =>
    rw [foldl_cons]
    by_cases h : data.roomId = roomId
    · have hnext : (s.receiveHuddleUpdated data).rooms roomId
          = some (newerHuddle start data.huddle) := by
        rw [HuddleStore.rooms_receiveHuddleUpdated, h, update_self, hstart]
        rfl
      rw [ih hnext]
      simp [noticesOf, h]
    · have hnext : (s.receiveHuddleUpdated data).rooms roomId = some start := by
        rw [HuddleStore.rooms_receiveHuddleUpdated, update_of_ne (Ne.symm h), hstart]
      rw [ih hnext]
      simp [noticesOf, h]

/-! ## States in any order -/

/-- Two states of one huddle. -/
def SameHuddle : Option RoomHuddle → Option RoomHuddle → Prop
  | some x, some y => x.id = y.id
  | _, _ => False

instance (x y : Option RoomHuddle) : Decidable (SameHuddle x y) := by
  unfold SameHuddle
  split <;> infer_instance

/-- The states of a room's huddle, in the order in which the server went
through them: within one huddle the versions increase. -/
def HuddleHistory (states : List (Option RoomHuddle)) : Prop :=
  states.Pairwise fun x y => ∀ a ∈ x, ∀ b ∈ y, a.id = b.id → a.version < b.version

/-- The final state is delivered at a moment after which nothing arrives but
snapshots of the same huddle – nothing at all, where the final state is that
there is none. -/
def LastWord (final : Option RoomHuddle) (delivered : List (Option RoomHuddle)) : Prop :=
  ∃ before after, delivered = before ++ final :: after ∧ ∀ h ∈ after, SameHuddle final h

/-- What is kept is one of the two. -/
theorem newerHuddle_eq_or (current incoming : Option RoomHuddle) :
    newerHuddle current incoming = current ∨ newerHuddle current incoming = incoming := by
  unfold newerHuddle
  split
  · exact .inr rfl
  · split
    · split
      · exact .inl rfl
      · exact .inr rfl
    · exact .inr rfl

/-- A notice about another huddle, or about none, is believed. -/
theorem newerHuddle_of_not_sameHuddle {current incoming : Option RoomHuddle}
    (h : ¬ SameHuddle current incoming) : newerHuddle current incoming = incoming := by
  cases incoming with
  | none => rfl
  | some new =>
    cases current with
    | none => rfl
    | some old =>
      have hid : old.id ≠ new.id := h
      show (if old.id = new.id ∧ new.version ≤ old.version then some old else some new) = some new
      rw [if_neg (fun hc => hid hc.1)]

/-- A room's huddle is what it was or one of the states delivered. -/
theorem foldl_newerHuddle_mem (start : Option RoomHuddle) (l : List (Option RoomHuddle)) :
    l.foldl newerHuddle start = start ∨ l.foldl newerHuddle start ∈ l := by
  induction l generalizing start with
  | nil => exact .inl rfl
  | cons h _ ih =>
    rw [foldl_cons]
    rcases ih (newerHuddle start h) with hfold | hfold
    · rcases newerHuddle_eq_or start h with hstart | hh
      · exact .inl (hfold.trans hstart)
      · exact .inr (mem_cons.mpr (.inl (hfold.trans hh)))
    · exact .inr (.tail _ hfold)

section History

variable {states : List (Option RoomHuddle)} {final : Option RoomHuddle}
  {h : Option RoomHuddle} {after : List (Option RoomHuddle)} (hhist : HuddleHistory states)
include hhist

variable (hfinal : states.getLast? = some final)
include hfinal

/-- No state of a history is newer than the final one, and the final one is
the only one of its version. -/
theorem HuddleHistory.version_le_final (hh : h ∈ states)
    {x y : RoomHuddle} (hx : h = some x) (hy : final = some y) (hid : x.id = y.id) :
    x = y ∨ x.version < y.version := by
  obtain ⟨init, rfl⟩ := getLast?_eq_some_iff.mp hfinal
  rcases mem_append.mp hh with hinit | hlast
  · exact .inr ((pairwise_append.mp hhist).2.2 h hinit final
      (mem_singleton_self final) x hx y hy hid)
  · have hxy : some x = some y := hx ▸ hy ▸ mem_singleton.mp hlast
    exact .inl (some.inj hxy)

/-- The final state is believed, whatever state of its history the room is
in. -/
theorem newerHuddle_final {current : Option RoomHuddle} (hcurrent : current ∈ none :: states) :
    newerHuddle current final = final := by
  cases final with
  | none => rfl
  | some y =>
    cases current with
    | none => rfl
    | some x =>
      have hx : some x ∈ states := by simpa using hcurrent
      show (if x.id = y.id ∧ y.version ≤ x.version then some x else some y) = some y
      split
      · next h =>
        rcases hhist.version_le_final hfinal hx rfl rfl h.1 with heq | hlt
        · rw [heq]
        · exact absurd h.2 (Nat.not_le.mpr hlt)
      · rfl

/-- A snapshot of the huddle that the final state is of is dropped after
it. -/
theorem newerHuddle_of_sameHuddle_final (hh : h ∈ states)
    (hsame : SameHuddle final h) : newerHuddle final h = final := by
  cases h with
  | none => cases final <;> exact hsame.elim
  | some x =>
    cases final with
    | none => exact hsame.elim
    | some y =>
      have hid : y.id = x.id := hsame
      show (if y.id = x.id ∧ x.version ≤ y.version then some y else some x) = some y
      have hle : x.version ≤ y.version := by
        rcases hhist.version_le_final hfinal hh rfl rfl hid.symm with heq | hlt
        · exact heq ▸ le_rfl
        · exact hlt.le
      rw [if_pos ⟨hid, hle⟩]

theorem foldl_newerHuddle_final
    (hafter : ∀ h ∈ after, h ∈ states) (hsame : ∀ h ∈ after, SameHuddle final h) :
    after.foldl newerHuddle final = final := by
  induction after with
  | nil => rfl
  | cons h _ ih =>
    rw [foldl_cons, newerHuddle_of_sameHuddle_final hhist hfinal (hafter h mem_cons_self)
      (hsame h (.head _))]
    exact ih (fun x hx => hafter x (.tail _ hx)) (fun x hx => hsame x (.tail _ hx))

/-- Where the final state is not delivered again, the room stays in it only
if nothing but snapshots of its huddle arrives. -/
theorem sameHuddle_of_foldl_eq (hafter : ∀ h ∈ after, h ∈ states) (hnot : final ∉ after)
    (hfold : after.foldl newerHuddle final = final) : ∀ h ∈ after, SameHuddle final h := by
  induction after with
  | nil => exact nofun
  | cons h after ih =>
    rw [foldl_cons] at hfold
    have hnotAfter : final ∉ after := fun hc => hnot (.tail _ hc)
    have hsame : SameHuddle final h := by
      by_contra hother
      rw [newerHuddle_of_not_sameHuddle hother] at hfold
      -- the room left the final state, and nothing brings it back
      rcases foldl_newerHuddle_mem h after with hleft | hback
      · exact hnot (mem_cons.mpr (.inl (hfold.symm.trans hleft)))
      · exact hnotAfter (hfold ▸ hback)
    rw [newerHuddle_of_sameHuddle_final hhist hfinal (hafter h mem_cons_self) hsame] at hfold
    intro x hx
    rcases mem_cons.mp hx with rfl | hx
    · exact hsame
    · exact ih (fun y hy => hafter y (.tail _ hy)) hnotAfter hfold x hx

/-- The fold converges exactly when the final state has the last word. -/
theorem foldl_newerHuddle_eq_final_iff {start : Option RoomHuddle}
    (hstart : start ∈ none :: states) {delivered : List (Option RoomHuddle)}
    (hdel : Delivery.Delivers states delivered) :
    delivered.foldl newerHuddle start = final ↔ LastWord final delivered := by
  have hreach : ∀ before after, delivered = before ++ final :: after →
      delivered.foldl newerHuddle start = after.foldl newerHuddle final := by
    intro before after hsplit
    have hcurrent : before.foldl newerHuddle start ∈ none :: states := by
      rcases foldl_newerHuddle_mem start before with h | h
      · rw [h]
        exact hstart
      · exact .tail _ ((hsplit ▸ hdel).mem_of_append h)
    rw [hsplit, foldl_append, foldl_cons, newerHuddle_final hhist hfinal hcurrent]
  have hmem : ∀ before after, delivered = before ++ final :: after → ∀ h ∈ after, h ∈ states := by
    intro before after hsplit h hh
    exact (hdel h).mp (hsplit ▸ mem_append_right _ (.tail _ hh))
  constructor
  · intro hfold
    have hthere : final ∈ delivered := (hdel final).mpr (mem_of_getLast? hfinal)
    obtain ⟨before, a, after, hsplit, rfl, hnot⟩ :=
      Delivery.exists_last (P := (final = ·)) ⟨final, hthere, rfl⟩
    rw [hreach before after hsplit] at hfold
    exact ⟨before, after, hsplit, sameHuddle_of_foldl_eq hhist hfinal (hmem before after hsplit)
      (fun hc => hnot final hc rfl) hfold⟩
  · rintro ⟨before, after, hsplit, hsame⟩
    rw [hreach before after hsplit]
    exact foldl_newerHuddle_final hhist hfinal (hmem before after hsplit) hsame

end History

/-- **A room's huddle converges exactly when the final state has the last
word.** Whatever the room had seen of the history, and whatever is delivered
for other rooms, once every state was delivered the room is in the final one
if and only if a delivery of it was followed by nothing but snapshots of the
same huddle. -/
theorem huddle_converges_iff {states : List (Option RoomHuddle)} {start final : Option RoomHuddle}
    (hhist : HuddleHistory states) (hfinal : states.getLast? = some final)
    (hstart : start ∈ none :: states) {s : HuddleStore} {roomId : Ulid}
    (hroom : s.rooms roomId = some start) {notices : List HuddleUpdatedData}
    (hdel : Delivery.Delivers states (noticesOf roomId notices)) :
    (notices.foldl HuddleStore.receiveHuddleUpdated s).rooms roomId = some final
      ↔ LastWord final (noticesOf roomId notices) := by
  rw [rooms_foldl_receiveHuddleUpdated roomId notices hroom, some_inj]
  exact foldl_newerHuddle_eq_final_iff hhist hfinal hstart hdel

/-- A huddle of nobody, for the runs below. -/
def quietHuddle (id version : ℕ) : RoomHuddle := ⟨id, 1, 9, "", version, [], []⟩

/-- A user who knows one room, without a huddle. -/
def knowsOneRoom : HuddleStore := ⟨7, fun r => if r = 1 then some none else none, none⟩

/-- The last snapshot of a huddle arrives twice and before an earlier one: the
room is in the final state. -/
theorem huddle_converges_swapped :
    (([some (quietHuddle 3 2), some (quietHuddle 3 1), some (quietHuddle 3 2)].map
        (HuddleUpdatedData.mk 1)).foldl HuddleStore.receiveHuddleUpdated knowsOneRoom).rooms 1
      = some (some (quietHuddle 3 2)) := by
  have hdel : Delivery.Delivers [some (quietHuddle 3 1), some (quietHuddle 3 2)]
      (noticesOf 1 ([some (quietHuddle 3 2), some (quietHuddle 3 1), some (quietHuddle 3 2)].map
        (HuddleUpdatedData.mk 1))) := by
    intro h
    simp only [noticesOf, map_cons, map_nil, filter_cons, decide_true, if_true,
      filter_nil, mem_cons, not_mem_nil, or_false]
    tauto
  exact (huddle_converges_iff (by unfold HuddleHistory; decide) rfl (by decide) rfl hdel).mpr
    ⟨[], [some (quietHuddle 3 1), some (quietHuddle 3 2)], rfl, by decide⟩

/-- **An ended huddle comes back.** A huddle started and ended; its only
snapshot is delivered after the end, and the room is left with it. -/
theorem ended_huddle_comes_back :
    ∃ states : List (Option RoomHuddle), HuddleHistory states ∧ states.getLast? = some none ∧
      ∃ notices, Delivery.Delivers states (noticesOf 1 notices) ∧ knowsOneRoom.rooms 1 = some none ∧
        (notices.foldl HuddleStore.receiveHuddleUpdated knowsOneRoom).rooms 1
          = some (some (quietHuddle 3 1)) := by
  refine ⟨[some (quietHuddle 3 1), none], by unfold HuddleHistory; decide, rfl,
    [⟨1, none⟩, ⟨1, some (quietHuddle 3 1)⟩], ?_, rfl, by decide⟩
  intro h
  simp only [noticesOf, filter_cons, decide_true, if_true, filter_nil, map_cons,
    map_nil, mem_cons, not_mem_nil, or_false]
  tauto

end Hibari
