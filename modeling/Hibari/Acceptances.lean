import Hibari.LockRuns
import Hibari.Message

/-!
# Invites that are accepted at once

Who accepts an invite joins all default rooms of the workspace, and each of them gets a log line,
numbered by the room's row. The rows of the rooms are locked one after the other and held to the
end, in the order in which the database returned the rooms – which nothing says anything about.
Before them the row of the invite is locked, to count the use.

So two acceptances of one invite wait for each other at the invite. Two of different invites that
lock the same room first wait for each other there. Any two others get into a cycle
(`acceptances_deadlock_free_iff`).
-/

namespace Hibari

open List

/-- A row that is locked where invites are accepted and messages are sent. -/
inductive JoinRow
  | invite (id : Ulid)
  | roomMember (room user : Ulid)
  | room (id : Ulid)
  deriving DecidableEq

/-- A transaction. An acceptance is given with the rooms that it joins, in the order in which
`JoinDefaultRooms` returns them. -/
inductive JoinTraffic
  | acceptInvite (user invite : Ulid) (rooms : List Ulid)
  | sendMessage (user room : Ulid)
  deriving DecidableEq

namespace JoinTraffic

/-- **The rows that a transaction locks**, in order. The rows that an acceptance inserts, which are
the user's own, and those that all of them only share are left out. -/
def locks : JoinTraffic → List JoinRow
  | acceptInvite _ invite rooms => .invite invite :: rooms.map .room
  | sendMessage user room => [.roomMember room user, .room room]

/-- Whoever joins, joins the default rooms, in some order. -/
def Joins (defaults : List Ulid) : JoinTraffic → Prop
  | acceptInvite _ _ rooms => rooms.Perm defaults
  | sendMessage _ _ => True

/-- The transactions at once. -/
def system (ts : List JoinTraffic) :
    TransitionSystem (List (LockRuns.Task JoinTraffic)) LockRuns.Action :=
  LockRuns.system locks Eq ts

/-- **Acceptances of different invites begin with the same room.** -/
def SameFirstRoom (ts : List JoinTraffic) : Prop :=
  ∀ u v invite invite' rooms rooms', acceptInvite u invite rooms ∈ ts →
    acceptInvite v invite' rooms' ∈ ts → invite ≠ invite' → rooms.head? = rooms'.head?

end JoinTraffic

/-- Which kind of row comes when. -/
def JoinRow.rank : JoinRow → ℕ
  | invite _ => 0
  | roomMember _ _ => 1
  | room _ => 2

open JoinTraffic

variable {ts : List JoinTraffic} {defaults : List Ulid}

theorem rising_locks (t : JoinTraffic) : t.locks.Pairwise fun r r' => r.rank ≤ r'.rank := by
  cases t with
  | acceptInvite =>
    refine pairwise_cons.mpr ⟨fun r _ => Nat.zero_le _, ?_⟩
    exact pairwise_map.mpr (pairwise_of_forall fun _ _ => le_rfl)
  | sendMessage u room =>
    show [JoinRow.roomMember room u, JoinRow.room room].Pairwise _
    simp [JoinRow.rank]

/-- Only an acceptance asks for a row of the kind of one that it has: for a room, when it has the
invite and its first room. -/
theorem first_of_stays {t : JoinTraffic} {n : ℕ} (h : LockRuns.Stays JoinRow.rank t.locks n) :
    ∃ u invite a rooms, t = acceptInvite u invite (a :: rooms) ∧
      JoinRow.invite invite ∈ t.locks.take n ∧ JoinRow.room a ∈ t.locks.take n := by
  obtain ⟨r, hr, p, hp, hrank⟩ := h
  cases t with
  | acceptInvite u invite rooms =>
    cases rooms with
    | nil =>
      match n with
      | 0 => cases hp
      | n + 1 => cases hr
    | cons a rooms =>
      match n with
      | 0 => cases hp
      | 1 =>
        obtain rfl : r = .room a := (Option.some.inj hr).symm
        obtain rfl : p = .invite invite := mem_singleton.mp hp
        exact absurd hrank (show 0 ≠ 2 by decide)
      | n + 2 =>
        refine ⟨u, invite, a, rooms, rfl, ?_, ?_⟩
        · exact .head _
        · exact .tail _ (.head _)
  | sendMessage u room =>
    match n with
    | 0 => cases hp
    | 1 =>
      obtain rfl : r = .room room := (Option.some.inj hr).symm
      obtain rfl : p = .roomMember room u := mem_singleton.mp hp
      exact absurd hrank (show 1 ≠ 2 by decide)
    | n + 2 => cases hr

/-- **Acceptances that begin with the same room** wait for each other there. -/
theorem not_deadlocked_of_sameFirstRoom (h : SameFirstRoom ts)
    {tasks : List (LockRuns.Task JoinTraffic)} (hs : (JoinTraffic.system ts).Reachable tasks) :
    ¬LockRuns.Deadlocked locks Eq tasks := by
  refine LockRuns.not_deadlocked_of_gates JoinRow.rank (fun _ _ heq => congrArg _ heq)
    (fun t _ => rising_locks t) (fun _ _ => Eq.symm) (fun i j t u n m _ hi hj ht hu => ?_) hs
  obtain ⟨v, invite, a, rooms, rfl, hinvite, ha⟩ := first_of_stays ht
  obtain ⟨w, invite', b, rooms', rfl, hinvite', hb⟩ := first_of_stays hu
  by_cases hsame : invite = invite'
  · exact ⟨_, hinvite, _, hinvite', congrArg _ hsame⟩
  · have hfirst := h v w invite invite' _ _ (mem_of_getElem? hi) (mem_of_getElem? hj) hsame
    exact ⟨_, ha, _, hb, congrArg _ (Option.some.inj hfirst)⟩

/-- **Two acceptances that begin with different rooms** get into a cycle: one goes up to the room
that the other begins with, and that one on to the first room that it does not get. -/
theorem exists_deadlocked_of_first_ne {u v invite invite' a b : Ulid} {rooms rooms' : List Ulid}
    (ht : acceptInvite u invite (a :: rooms) ∈ ts) (hu : acceptInvite v invite' (b :: rooms') ∈ ts)
    (hinvite : invite ≠ invite') (hab : a ≠ b) (hb : b ∈ a :: rooms) (ha : a ∈ b :: rooms')
    (hnodup : (a :: rooms).Nodup) :
    ∃ tasks, (JoinTraffic.system ts).Reachable tasks ∧ LockRuns.Deadlocked locks Eq tasks := by
  obtain ⟨i, hi⟩ := mem_iff_getElem?.mp ht
  obtain ⟨j, hj⟩ := mem_iff_getElem?.mp hu
  have hij : i ≠ j := by
    rintro rfl
    injection Option.some.inj (hi.symm.trans hj) with _ heq _
    exact hinvite heq
  obtain ⟨pre, post, hsplit⟩ := append_of_mem hb
  have hbpre : b ∉ pre := by
    rw [hsplit] at hnodup
    exact fun h => (nodup_append.mp hnodup).2.2 b h b (.head _) rfl
  have hapre : a ∈ pre := by
    cases pre with
    | nil => exact absurd (List.cons.inj hsplit).1 hab
    | cons =>
      rw [(List.cons.inj hsplit).1]
      exact .head _
  -- the first room of the other one that it does not get
  obtain ⟨q, hq⟩ : ∃ q, (b :: rooms').find? (fun x => decide (x ∈ pre)) = some q :=
    Option.isSome_iff_exists.mp (find?_isSome.mpr ⟨a, ha, decide_eq_true hapre⟩)
  obtain ⟨hqpre, pre', post', hsplit', hbefore⟩ := find?_eq_some_iff_append.mp hq
  have hqpre : q ∈ pre := of_decide_eq_true hqpre
  have hbpre' : b ∈ pre' := by
    cases pre' with
    | nil =>
      obtain rfl : b = q := (List.cons.inj hsplit').1
      exact absurd hqpre hbpre
    | cons =>
      rw [(List.cons.inj hsplit').1]
      exact .head _
  have hlocks : (acceptInvite u invite (a :: rooms)).locks =
      (.invite invite :: pre.map .room) ++ .room b :: post.map .room := by
    rw [JoinTraffic.locks, hsplit, map_append]
    rfl
  have hlocks' : (acceptInvite v invite' (b :: rooms')).locks =
      (.invite invite' :: pre'.map .room) ++ .room q :: post'.map .room := by
    rw [JoinTraffic.locks, hsplit', map_append]
    rfl
  refine LockRuns.deadlocked_pair hi hj hij hlocks hlocks' (fun x hx y hy heq => ?_)
    ⟨_, .tail _ (mem_map_of_mem hbpre'), rfl⟩
    ⟨_, .tail _ (mem_map_of_mem hqpre), rfl⟩
  subst heq
  rcases mem_cons.mp hx with rfl | hx
  · rcases mem_cons.mp hy with heq | hy
    · exact hinvite (JoinRow.invite.inj heq).symm
    · obtain ⟨z, -, hz⟩ := mem_map.mp hy
      cases hz
  · obtain ⟨z, hz, rfl⟩ := mem_map.mp hx
    rcases mem_cons.mp hy with heq | hy
    · cases heq
    · obtain ⟨z', hz', heq⟩ := mem_map.mp hy
      obtain rfl := JoinRow.room.inj heq
      have hfree := hbefore z' hz
      rw [Bool.not_eq_true', decide_eq_false_iff_not] at hfree
      exact hfree hz'

/-- **Acceptances do not deadlock** exactly if those of different invites begin with the same room,
whatever messages are sent to the rooms meanwhile. -/
theorem acceptances_deadlock_free_iff (hdefaults : defaults.Nodup)
    (hts : ∀ t ∈ ts, t.Joins defaults) :
    (∀ tasks, (JoinTraffic.system ts).Reachable tasks → ¬LockRuns.Deadlocked locks Eq tasks) ↔
      SameFirstRoom ts := by
  refine ⟨fun h u v invite invite' rooms rooms' ht hu hinvite => ?_, fun h tasks hs =>
    not_deadlocked_of_sameFirstRoom h hs⟩
  have hrooms : rooms.Perm defaults := hts _ ht
  have hrooms' : rooms'.Perm defaults := hts _ hu
  have hperm : rooms.Perm rooms' := hrooms.trans hrooms'.symm
  cases rooms with
  | nil => rw [nil_perm.mp hperm]
  | cons a =>
    cases rooms' with
    | nil => exact absurd hperm.eq_nil (cons_ne_nil _ _)
    | cons b =>
      by_contra hne
      have hab : a ≠ b := fun heq => hne (congrArg some heq)
      obtain ⟨tasks, hs, hdead⟩ := exists_deadlocked_of_first_ne ht hu hinvite hab
        (hperm.mem_iff.mpr (.head _)) (hperm.mem_iff.mp (.head _))
        (hrooms.nodup_iff.mpr hdefaults)
      exact h tasks hs hdead

/-- Two users who join the same rooms in the same order, and one who sends a message to the second
of them. -/
theorem same_order_deadlock_free : [5, 6].Nodup ∧ ∀ tasks, (JoinTraffic.system
    [.acceptInvite 1 10 [5, 6], .acceptInvite 2 11 [5, 6], .sendMessage 3 6]).Reachable tasks →
      ¬LockRuns.Deadlocked locks Eq tasks := by
  have hdefaults : [5, 6].Nodup := by decide
  refine ⟨hdefaults, (acceptances_deadlock_free_iff hdefaults ?_).mpr ?_⟩
  · intro t ht
    simp only [mem_cons, not_mem_nil, or_false] at ht
    rcases ht with rfl | rfl | rfl
    · exact List.Perm.refl _
    · exact List.Perm.refl _
    · exact trivial
  · intro u v invite invite' rooms rooms' ht hu _
    simp only [mem_cons, not_mem_nil, or_false, acceptInvite.injEq, reduceCtorEq] at ht hu
    rcases ht with ⟨-, -, rfl⟩ | ⟨-, -, rfl⟩ <;> rcases hu with ⟨-, -, rfl⟩ | ⟨-, -, rfl⟩ <;> rfl

/-- **Two users who join the same rooms in different orders**, by different invites, wait for each
other. -/
theorem different_orders_deadlock : ∃ tasks, (JoinTraffic.system
    [.acceptInvite 1 10 [5, 6], .acceptInvite 2 11 [6, 5]]).Reachable tasks ∧
      LockRuns.Deadlocked locks Eq tasks :=
  exists_deadlocked_of_first_ne (.head _)
    (.tail _ (.head _)) (by decide) (by decide) (by decide) (by decide)
    (by decide)

end Hibari
