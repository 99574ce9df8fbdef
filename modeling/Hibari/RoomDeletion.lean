import Hibari.LockRuns
import Hibari.RoomLocks

/-!
# Deleting a room while it is used

A deletion locks the room first, then the huddle that is going on, and its statement comes to the
members, the messages and the other huddles by cascade. Whatever else is done to a room locks a
member, a message or a huddle before the room, whose row gives out the numbers.

So **every deletion gets into a cycle** with every transaction that goes as far as the room, or as
the huddle that is going on after a member, and with no others (`deletion_deadlock_free_iff`).
-/

namespace Hibari

open List Option

/-- The modes of row locks. -/
inductive RowLockMode
  | keyShare | share | noKeyUpdate | update
  deriving DecidableEq

/-- The modes that two transactions cannot have at once. -/
def RowLockMode.conflicts : RowLockMode → RowLockMode → Bool
  | keyShare, m => m = update
  | share, m => m = noKeyUpdate || m = update
  | noKeyUpdate, m => m ≠ keyShare
  | update, _ => true

/-- A row, and how it is locked. -/
structure RowLock where
  row : RoomRow
  mode : RowLockMode
  deriving DecidableEq

/-- Two locks of one row in modes that conflict. -/
def RowLock.Conflict (l l' : RowLock) : Prop := l.row = l'.row ∧ l.mode.conflicts l'.mode = true

instance (l l' : RowLock) : Decidable (l.Conflict l') := by
  unfold RowLock.Conflict
  infer_instance

/-- **What there is of a room**, in the order in which a deletion comes to it. -/
structure RoomContents where
  rows : RoomRows
  members : List Ulid
  messages : List Ulid
  huddles : List Ulid
  /-- The huddle that has not ended. -/
  active : Option Ulid
  nodup_members : members.Nodup
  nodup_messages : messages.Nodup
  nodup_huddles : huddles.Nodup
  active_mem : ∀ h, active = some h → h ∈ huddles

/-- What is done to a room while it may be deleted. -/
inductive RoomTraffic
  | room (t : RoomTransaction)
  | changePin (actor message : Ulid)
  | removeRoomMember (target : Ulid)
  | deleteRoom
  deriving DecidableEq

namespace RoomContents

open RoomRow

variable (d : RoomContents)

/-- The row is there. -/
def Has : RoomRow → Bool
  | roomMember u => u ∈ d.members
  | huddle h => h ∈ d.huddles
  | message m => m ∈ d.messages
  | linkPreview _ | room => true

/-- `DeleteRoom`: the room, the huddle that is going on, and what is deleted by cascade, of which
that huddle is locked already. -/
def deletion : List RoomRow :=
  room :: (d.active.toList.map huddle ++ d.members.map roomMember) ++ d.messages.map message ++
    (d.huddles.filter fun h => d.active ≠ some h).map huddle

/-- The rows that a transaction asks for as long as they are there. -/
def asked : RoomTraffic → List RoomRow
  | .room t => d.rows.locks t
  | .changePin actor m =>
    [roomMember actor, message m] ++ if (d.rows.message m).kind = .user then [room] else []
  | .removeRoomMember target => [roomMember target, room]
  | .deleteRoom => d.deletion

/-- **The rows that a transaction locks**, up to one that is not there. -/
def rowsOf (t : RoomTraffic) : List RoomRow := (d.asked t).takeWhile d.Has

/-- How a transaction locks a row. Rows of the workspace, which all of them only share, are left
out. -/
def mode : RoomTraffic → RoomRow → RowLockMode
  | .deleteRoom, _ => .update
  | .removeRoomMember _, roomMember _ => .update
  | _, huddle _ | _, linkPreview _ => .update
  | _, _ => .noKeyUpdate

/-- The locks that a transaction asks for. -/
def locks (t : RoomTraffic) : List RowLock := (d.rowsOf t).map fun r => ⟨r, mode t r⟩

/-- When a deletion comes to a row. -/
def rank (r : RoomRow) : ℕ := d.deletion.idxOf r

/-- **A transaction crosses a deletion**: when it has rows already, it asks for one that a deletion
comes to before all of them. -/
def Crosses (t : RoomTraffic) : Prop :=
  ∃ pre r post, d.rowsOf t = pre ++ r :: post ∧ pre ≠ [] ∧ ∀ q ∈ pre, d.rank r < d.rank q

/-- The transactions of a room, at once. -/
def trafficSystem (ts : List RoomTraffic) :
    TransitionSystem (List (LockRuns.Task RoomTraffic)) LockRuns.Action :=
  LockRuns.system d.locks RowLock.Conflict ts

variable {d} {t : RoomTraffic} {r : RoomRow}

/-! ## What a deletion comes to -/

theorem nodup_deletion : d.deletion.Nodup := by
  have hmember : (d.members.map roomMember).Nodup :=
    d.nodup_members.map fun _ _ h => roomMember.inj h
  have hmessage : (d.messages.map message).Nodup :=
    d.nodup_messages.map fun _ _ h => message.inj h
  have hhuddle : ((d.huddles.filter fun h => d.active ≠ some h).map huddle).Nodup :=
    (d.nodup_huddles.filter _).map fun _ _ h => huddle.inj h
  have hactive : (d.active.toList.map huddle).Nodup := by cases d.active <;> simp
  simp only [deletion, cons_append, nodup_cons, nodup_append, hmember, hmessage,
    hhuddle, hactive, mem_append, List.mem_map, mem_filter, mem_toList,
    true_and, ne_eq, decide_eq_true_eq]
  -- the kinds of rows tell the parts apart, and the huddle that is going on is in one of them
  grind

theorem rising_deletion : d.deletion.Pairwise fun r r' => d.rank r < d.rank r' := by
  rw [pairwise_iff_getElem]
  intro i j hi hj hij
  rwa [rank, rank, nodup_deletion.idxOf_getElem i hi, nodup_deletion.idxOf_getElem j hj]

theorem rank_room_lt (h : r ≠ room) : d.rank room < d.rank r := by
  show d.deletion.idxOf room < d.deletion.idxOf r
  rw [deletion, cons_append, cons_append, idxOf_cons_self, idxOf_cons_ne _ h.symm]
  exact Nat.succ_pos _

theorem rank_lt_of_append (part rest : List RoomRow)
    (heq : d.deletion = part ++ rest) {r' : RoomRow}
    (hr : r ∈ part) (hr' : r' ∉ part) : d.rank r < d.rank r' := by
  rw [rank, rank, heq, idxOf_append_of_mem hr, idxOf_append_of_notMem hr']
  exact Nat.lt_add_right _ (idxOf_lt_length_of_mem hr)

theorem rank_member_lt_message {u m : Ulid} (hu : u ∈ d.members) :
    d.rank (roomMember u) < d.rank (message m) := by
  refine rank_lt_of_append (room :: (d.active.toList.map huddle ++ d.members.map roomMember))
    _ (append_assoc _ _ _) ?_ ?_
  · simp [hu]
  · simp

theorem rank_member_lt_huddle {u h : Ulid} (hu : u ∈ d.members) (hactive : d.active ≠ some h) :
    d.rank (roomMember u) < d.rank (huddle h) := by
  refine rank_lt_of_append (room :: (d.active.toList.map huddle ++ d.members.map roomMember))
    _ (append_assoc _ _ _) ?_ ?_
  · simp [hu]
  · simpa using fun heq => hactive heq

/-- The huddle that is going on comes before the members. -/
theorem rank_active_lt_member {u h : Ulid} (hactive : d.active = some h) :
    d.rank (huddle h) < d.rank (roomMember u) := by
  refine rank_lt_of_append (room :: d.active.toList.map huddle)
    (d.members.map roomMember ++ d.messages.map message ++
      (d.huddles.filter fun h => d.active ≠ some h).map huddle) ?_ ?_ ?_
  · simp [deletion]
  · simp [hactive]
  · simp

/-- A deletion comes to every row that is there but to previews. -/
theorem mem_deletion (hhas : d.Has r = true) (hpreview : ∀ p, r ≠ linkPreview p) :
    r ∈ d.deletion := by
  cases r with
  | huddle h =>
    by_cases hactive : d.active = some h
    · simp [deletion, hactive]
    · have hin : h ∈ d.huddles := by simpa [Has] using hhas
      simp [deletion, hin, hactive]
  | linkPreview p => exact absurd rfl (hpreview p)
  | room => simp [deletion]
  | _ => simpa [deletion, Has] using hhas

theorem rowsOf_deleteRoom : d.rowsOf .deleteRoom = d.deletion := by
  refine takeWhile_eq_self_iff.mpr fun r hr => ?_
  simp only [asked, deletion, cons_append, mem_cons, mem_append, List.mem_map,
    mem_filter, mem_toList] at hr
  obtain rfl | ((⟨h, hactive, rfl⟩ | ⟨u, hu, rfl⟩) | ⟨m, hm, rfl⟩) | ⟨h, ⟨hin, -⟩, rfl⟩ := hr
  · rfl
  · exact decide_eq_true (d.active_mem h hactive)
  · exact decide_eq_true hu
  · exact decide_eq_true hm
  · exact decide_eq_true hin

/-! ## What the others lock -/

variable (ht : t ≠ .deleteRoom)
include ht

/-- **The shapes of the others**: the room after one or two rows of which the first is no preview,
or a member and what comes after it, or a message alone. -/
theorem asked_cases :
    (∃ a pre post, d.asked t = a :: pre ++ room :: post ∧ pre.length ≤ 1 ∧ room ∉ a :: pre ∧
      ∀ p, a ≠ linkPreview p) ∨
    (∃ u m, d.asked t = [roomMember u, message m]) ∨ (∃ m, d.asked t = [message m]) ∨
      ∃ u h, d.asked t = [roomMember u, huddle h] := by
  cases t with
  | deleteRoom => exact absurd rfl ht
  | removeRoomMember target =>
    exact .inl ⟨roomMember target, [], [], rfl, by simp, by simp, by simp⟩
  | changePin actor m =>
    simp only [asked]
    split
    · exact .inl ⟨roomMember actor, [message m], [], rfl, by simp, by simp, by simp⟩
    · exact .inr (.inl ⟨actor, m, rfl⟩)
  | room t =>
    simp only [asked, RoomRows.locks]
    cases t with
    | sendMessage actor =>
      exact .inl ⟨roomMember actor, [], [], rfl, by simp, by simp, by simp⟩
    | sendThreadReply actor root =>
      simp only [RoomRows.ordered, RoomRows.written]
      split
      · exact .inl ⟨roomMember actor, [message root], [], rfl, by simp, by simp, by simp⟩
      · exact .inr (.inl ⟨actor, root, rfl⟩)
    | editMessage actor m =>
      simp only [RoomRows.ordered, RoomRows.written]
      split
      · exact .inl ⟨roomMember actor, [message m], _, rfl, by simp, by simp, by simp⟩
      · exact .inr (.inl ⟨actor, m, rfl⟩)
    | changeReaction actor m =>
      simp only [RoomRows.ordered, RoomRows.written]
      split
      · exact .inl ⟨roomMember actor, [message m], [], rfl, by simp, by simp, by simp⟩
      · exact .inr (.inl ⟨actor, m, rfl⟩)
    | deleteMessage m =>
      simp only [RoomRows.ordered, RoomRows.written]
      split
      · cases hroot : (d.rows.message m).threadRootId with
        | none => exact .inl ⟨message m, [], _, rfl, by simp, by simp, by simp⟩
        | some root => exact .inl ⟨message m, [message root], _, rfl, by simp, by simp, by simp⟩
      · exact .inr (.inr (.inl ⟨m, rfl⟩))
    | completeLinkPreview m p =>
      simp only [RoomRows.ordered, RoomRows.written]
      split
      · exact .inl ⟨message m, [linkPreview p], [], rfl, by simp, by simp, by simp⟩
      · exact .inr (.inr (.inl ⟨m, rfl⟩))
    | joinHuddle actor entry =>
      cases entry with
      | start => exact .inl ⟨roomMember actor, [], [], rfl, by simp, by simp, by simp⟩
      | ended h => exact .inl ⟨roomMember actor, [huddle h], [], rfl, by simp, by simp, by simp⟩
      | again h => exact .inr (.inr (.inr ⟨actor, h, rfl⟩))
      | first h => exact .inl ⟨roomMember actor, [huddle h], _, rfl, by simp, by simp, by simp⟩
    | endHuddleIfEmpty h => exact .inl ⟨huddle h, [], _, rfl, by simp, by simp, by simp⟩
    | endRoomHuddle h => exact .inl ⟨huddle h, [], _, rfl, by simp, by simp, by simp⟩

/-- The first row of a transaction is one that a deletion comes to after the room. -/
theorem head_rowsOf (h : r ∈ (d.rowsOf t).head?) : r ∈ d.deletion ∧ r ≠ room := by
  have hhas : d.Has r = true := mem_takeWhile_imp (mem_of_mem_head? h)
  have hhead : (d.asked t).head? = some r := by
    rw [rowsOf, head?_takeWhile] at h
    exact (filter_eq_some_iff.mp h).1
  have hkind : (∀ p, r ≠ linkPreview p) ∧ r ≠ room := by
    obtain ⟨a, pre, post, hasked, -, hroom, ha⟩ | ⟨u, m, hasked⟩ | ⟨m, hasked⟩ | ⟨u, k, hasked⟩ :=
      asked_cases ht
    · rw [hasked] at hhead
      obtain rfl : a = r := some.inj hhead
      exact ⟨ha, fun heq => hroom (heq ▸ (.head _))⟩
    all_goals
      rw [hasked] at hhead
      cases hhead
      exact ⟨nofun, nofun⟩
  exact ⟨mem_deletion hhas hkind.1, hkind.2⟩

/-- **What comes as far as the room crosses a deletion.** -/
theorem crosses_of_room (h : room ∈ d.rowsOf t) : d.Crosses t := by
  obtain ⟨pre, post, hsplit, hpre⟩ := eq_append_cons_of_mem h
  refine ⟨pre, room, post, hsplit, ?_, fun q hq => rank_room_lt fun heq => hpre (heq ▸ hq)⟩
  rintro rfl
  have hhead : room ∈ (d.rowsOf t).head? := by
    rw [hsplit]
    rfl
  exact (head_rowsOf ht hhead).2 rfl

omit ht

/-- **A deletion comes to the rows of the others in their order**, unless they cross it. -/
theorem rising_of_not_crosses (h : ¬ d.Crosses t) :
    (d.rowsOf t).Pairwise fun r r' => d.rank r < d.rank r' := by
  by_cases ht : t = .deleteRoom
  · rw [ht, rowsOf_deleteRoom]
    exact rising_deletion
  have hroom : room ∉ d.rowsOf t := fun hin => h (crosses_of_room ht hin)
  -- one row, or none, is in order
  have hshort : (d.rowsOf t).length ≤ 1 →
      (d.rowsOf t).Pairwise fun r r' => d.rank r < d.rank r' := by
    intro hle
    match hrows : d.rowsOf t with
    | [] => exact List.Pairwise.nil
    | [r] => exact pairwise_singleton _ r
    | r :: r' :: rest =>
      rw [hrows] at hle
      simp at hle
  obtain ⟨a, pre, post, hasked, hlength, -, -⟩ | ⟨u, m, hasked⟩ | ⟨m, hasked⟩ | ⟨u, k, hasked⟩ :=
    asked_cases ht
  · -- it does not come as far as the room, so that one of the two is not there
    refine hshort ?_
    rw [rowsOf, hasked] at hroom ⊢
    have hall : ¬ ∀ q ∈ a :: pre, d.Has q = true := by
      intro hhas
      rw [takeWhile_append_of_pos hhas, takeWhile_cons_of_pos rfl] at hroom
      exact hroom (mem_append_right _ (.head _))
    match pre, hlength with
    | [], _ =>
      have hfalse : d.Has a = false := by simpa using hall
      simp [hfalse]
    | [b], _ =>
      simp only [cons_append, nil_append, takeWhile_cons]
      split
      · next ha =>
        have hfalse : d.Has b = false := by simpa [ha] using hall
        simp [hfalse]
      · exact Nat.zero_le _
  · by_cases hu : u ∈ d.members
    · have hlt : d.rank (roomMember u) < d.rank (message m) := rank_member_lt_message hu
      refine List.Pairwise.sublist ?_ (pairwise_pair.mpr hlt)
      rw [rowsOf, hasked]
      exact takeWhile_sublist _
    · refine hshort ?_
      simp [rowsOf, hasked, Has, hu]
  · refine hshort ?_
    rw [rowsOf, hasked]
    exact (takeWhile_sublist _).length_le
  · by_cases hu : u ∈ d.members
    · by_cases hactive : d.active = some k
      · refine absurd ⟨[roomMember u], huddle k, [], ?_, by simp, ?_⟩ h
        · simp [rowsOf, hasked, Has, hu, d.active_mem k hactive]
        · simpa using rank_active_lt_member hactive
      · have hlt : d.rank (roomMember u) < d.rank (huddle k) := rank_member_lt_huddle hu hactive
        refine List.Pairwise.sublist ?_ (pairwise_pair.mpr hlt)
        rw [rowsOf, hasked]
        exact takeWhile_sublist _
    · refine hshort ?_
      simp [rowsOf, hasked, Has, hu]

/-- What asks for rows in the order of a deletion does not cross it. -/
theorem not_crosses_of_rising (h : (d.rowsOf t).Pairwise fun r r' => d.rank r < d.rank r') :
    ¬ d.Crosses t := by
  rintro ⟨pre, r, post, hsplit, hne, hlow⟩
  obtain ⟨q, hq⟩ := exists_mem_of_ne_nil pre hne
  rw [hsplit] at h
  have hlt := (pairwise_append.mp h).2.2 q hq r (.head _)
  exact absurd (hlow q hq) (not_lt_of_gt hlt)

/-! ## At once -/

/-- All modes of these locks conflict. -/
theorem conflicts_mode (t t' : RoomTraffic) (r r' : RoomRow) :
    (mode t r).conflicts (mode t' r') = true := by
  have hmode : ∀ t r, mode t r = .noKeyUpdate ∨ mode t r = .update := by
    intro t r
    unfold mode
    split <;> simp
  obtain h | h := hmode t r <;> obtain h' | h' := hmode t' r' <;> rw [h, h'] <;> rfl

/-- **A deletion of a room gets into a cycle** just with what crosses it. Where somebody deletes the
room, no run of the transactions comes to transactions that wait for each other if and only if none
of them asks, when it has rows of the room, for one that a deletion locks before all of those. -/
theorem deletion_deadlock_free_iff (d : RoomContents) {ts : List RoomTraffic}
    (hdelete : .deleteRoom ∈ ts) :
    (∀ tasks, (d.trafficSystem ts).Reachable tasks →
      ¬ LockRuns.Deadlocked d.locks RowLock.Conflict tasks) ↔ ∀ t ∈ ts, ¬ d.Crosses t := by
  have hconflict : ∀ l l' : RowLock, l.Conflict l' → d.rank l.row = d.rank l'.row :=
    fun l l' h => congrArg d.rank h.1
  constructor
  · intro hnone t ht hcross
    obtain ⟨pre, r, post, hsplit, hne, hlow⟩ := hcross
    have hother : t ≠ .deleteRoom := by
      rintro rfl
      refine not_crosses_of_rising ?_ ⟨pre, r, post, hsplit, hne, hlow⟩
      rw [rowsOf_deleteRoom]
      exact rising_deletion
    obtain ⟨i, hi⟩ := getElem?_of_mem ht
    obtain ⟨j, hj⟩ := getElem?_of_mem hdelete
    have hij : i ≠ j := by
      rintro rfl
      exact hother (Option.some.inj (hi.symm.trans hj))
    obtain ⟨p, rest, rfl⟩ := exists_cons_of_ne_nil hne
    have hhead : p ∈ d.deletion := by
      refine (head_rowsOf hother ?_).1
      rw [hsplit]
      rfl
    have hin : ∀ q ∈ d.deletion, (⟨q, .update⟩ : RowLock) ∈ d.locks .deleteRoom := by
      intro q hq
      refine List.mem_map.mpr ⟨q, ?_, rfl⟩
      rwa [rowsOf_deleteRoom]
    have hr : r ∈ d.deletion := by
      refine idxOf_lt_length_iff.mp (lt_trans (hlow p (.head _)) ?_)
      exact idxOf_lt_length_of_mem hhead
    have hlocks : d.locks t = ((p :: rest).map fun q => ⟨q, mode t q⟩) ++
      (⟨r, mode t r⟩ : RowLock) :: post.map fun q => ⟨q, mode t q⟩ := by
      rw [locks, hsplit, map_append]
      rfl
    have hlater : ∀ l ∈ (p :: rest).map fun q => (⟨q, mode t q⟩ : RowLock),
        d.rank r < d.rank l.row := by
      intro l hl
      obtain ⟨q, hq, rfl⟩ := List.mem_map.mp hl
      exact hlow q hq
    have hrising : (d.locks .deleteRoom).Pairwise fun l l' => d.rank l.row < d.rank l'.row := by
      rw [locks, rowsOf_deleteRoom]
      exact pairwise_map.mpr rising_deletion
    have hreached : ∃ tasks, (d.trafficSystem ts).Reachable tasks ∧
        LockRuns.Deadlocked d.locks RowLock.Conflict tasks :=
      LockRuns.exists_deadlocked (fun l : RowLock => d.rank l.row) hconflict hi hj hij hlocks hlater
        hrising ⟨_, hin r hr, rfl, conflicts_mode t .deleteRoom r r⟩
        ⟨⟨p, mode t p⟩, List.mem_map_of_mem (.head _), _, hin p hhead, rfl,
          conflicts_mode .deleteRoom t p p⟩
    obtain ⟨tasks, hs, hdead⟩ := hreached
    exact hnone tasks hs hdead
  · intro hcross tasks hs
    refine LockRuns.not_deadlocked (fun l : RowLock => d.rank l.row) hconflict (fun t ht => ?_) hs
    exact pairwise_map.mpr (rising_of_not_crosses (hcross t ht))

/-- A room with a member, a message of that member and the log line of a huddle that has ended. -/
def smallRoom : RoomContents where
  rows :=
    { message := fun m => if m = 5 then ⟨.user, none, none⟩ else ⟨.system, some .huddle, none⟩
      linkPreviews := fun _ => []
      messageOf := fun _ => 6
      root_isThreadRoot := fun m r h => by
        split at h <;> exact nomatch h
      message_messageOf := fun _ => rfl
      kind_of_linkPreview := fun _ _ h => absurd h not_mem_nil
      linkPreview_unique := RoomRows.oneHuddle.linkPreview_unique }
  members := [10]
  messages := [5, 6]
  huddles := [7]
  active := none
  nodup_members := by decide
  nodup_messages := by decide
  nodup_huddles := by decide
  active_mem := nofun

/-- Two deletions and an edit of a log line, which is refused, do not get into each other's way. -/
theorem deletion_meets_refused :
    RoomTraffic.deleteRoom ∈ [RoomTraffic.deleteRoom, .room (.editMessage 10 6), .deleteRoom] ∧
      ∀ tasks, (smallRoom.trafficSystem [.deleteRoom, .room (.editMessage 10 6),
        .deleteRoom]).Reachable tasks →
        ¬ LockRuns.Deadlocked smallRoom.locks RowLock.Conflict tasks := by
  have hrising : ∀ t ∈ [RoomTraffic.deleteRoom, .room (.editMessage 10 6), .deleteRoom],
      (smallRoom.rowsOf t).Pairwise fun r r' => smallRoom.rank r < smallRoom.rank r' := by
    decide
  exact ⟨by decide, (deletion_deadlock_free_iff smallRoom (by decide)).mpr fun t ht =>
    not_crosses_of_rising (hrising t ht)⟩

/-- **A deletion and a message that is sent** get into a cycle: the sender's row is locked, then the
room is by the deletion, and each of them waits for the other. -/
theorem deletion_meets_send : ∃ tasks,
    (smallRoom.trafficSystem [.deleteRoom, .room (.sendMessage 10)]).Reachable tasks ∧
      LockRuns.Deadlocked smallRoom.locks RowLock.Conflict tasks := by
  have hrun : (smallRoom.trafficSystem [.deleteRoom, .room (.sendMessage 10)]).run
      [(.deleteRoom, some 0), (.room (.sendMessage 10), some 0)] [.lock 1, .lock 0] =
      some [(.deleteRoom, some 1), (.room (.sendMessage 10), some 1)] := by
    decide
  refine ⟨_, TransitionSystem.reachableBy_of_run rfl (fun _ _ _ => trivial) hrun, 0, ?_⟩
  refine (Relation.TransGen.single ?_).tail ?_ (b := 1)
  · exact ⟨by decide, _, _, rfl, rfl, ⟨.roomMember 10, .update⟩, rfl,
      ⟨.roomMember 10, .noKeyUpdate⟩, by decide, by decide⟩
  · exact ⟨by decide, _, _, rfl, rfl, ⟨.room, .noKeyUpdate⟩, rfl, ⟨.room, .update⟩, by decide,
      by decide⟩

end RoomContents

end Hibari
