import Hibari.DmKeys
import Hibari.InviteUses

/-!
# One room for two users

Both of two users may ask for the room of their direct messages at once, from any number of devices,
while either of them leaves the workspace, is removed, and comes back. Who asks first makes the
room; the others wait for the key, find the room, and put back who has left it.

A call shares the rows of both members until it commits, so that neither is removed meanwhile, and
a row of the room's members is added by who has waited for its key. So there is one room for two
users, one call has made it, all of them answer with it, and each says just of those users that
they have joined whose rows it has added (`one_dm_room_per_pair`).
-/

namespace Hibari

open List Option HeldRows DmKeys WorkspaceTables

/-! ## Rooms for two -/

/-- The row that `createDM` adds. -/
def newDM (id ws actor peer : Ulid) : WorkspaceRoom :=
  ⟨⟨none, false, false⟩, id, ws, .roomDM, some (min actor peer, max actor peer), 0, 0⟩

/-- The room of two users in a workspace. -/
def WorkspaceRoom.IsDM (r : WorkspaceRoom) (ws a b : Ulid) : Prop :=
  r.workspaceId = ws ∧ r.kind = .roomDM ∧ r.dmKey = some (min a b, max a b)

/-- Two users have a room. -/
def WorkspaceTables.HasDM (d : WorkspaceTables) (ws a b id : Ulid) : Prop :=
  ∃ r ∈ d.rooms, r.id = id ∧ r.IsDM ws a b

/-- **No two rooms for the same two users.** -/
def WorkspaceTables.OneDM (d : WorkspaceTables) : Prop :=
  ∀ r ∈ d.rooms, ∀ r' ∈ d.rooms, r.kind = .roomDM → r'.kind = .roomDM →
    r.workspaceId = r'.workspaceId → r.dmKey = r'.dmKey → r = r'

/-! ## What a call waits for -/

/-- The keys that a transaction has waited for when it wrote to rooms. -/
def WorkspaceWrite.waited : WorkspaceWrite → List WorkspaceLock
  | join joins none => joins.map RoomJoin.lock
  | join _ (some row) => if row.kind = .roomDM then [row.key] else []
  | _ => []

namespace WorkspaceTask

/-- What a call has written to rooms, as far as it has come. -/
def written : WorkspaceTask → WorkspaceWrite
  | addDM _ _ new _ joins => .join joins new
  | logging _ w _ _ | commit _ w _ => w
  | _ => .nothing

def waited (t : WorkspaceTask) : List WorkspaceLock := t.written.waited

/-- The room that `createDM` has made or found. -/
def dmRoom : WorkspaceTask → Option Ulid
  | addDM _ room _ _ _ => some room.id
  | _ => none

end WorkspaceTask

/-! ## The calls and their answers -/

/-- What a call of `createDM` answers. -/
structure DmReply where
  room : Ulid
  created : Bool
  joined : List Ulid
  deriving DecidableEq

/-- The call that begins with a step. -/
def WorkspaceAction.started : WorkspaceAction → List WorkspaceCall
  | .start c => [c]
  | _ => []

/-- **The service, the calls that have begun**, and the variable `r` of those of `createDM`. -/
structure DmDesk where
  service : WorkspaceService
  calls : List WorkspaceCall
  rooms : ℕ → Option Ulid

namespace DmDesk

def act (s : DmDesk) (a : WorkspaceAction) : Option DmDesk :=
  (s.service.act a).map fun service =>
    ⟨service, s.calls ++ a.started, fun i =>
      (service.tasks[i]?.bind WorkspaceTask.dmRoom) <|> s.rooms i⟩

/-- **The runs of the service**, with the calls and what they answer. -/
def system : TransitionSystem DmDesk WorkspaceAction where
  init s := s = ⟨.empty, [], fun _ => none⟩
  step := act

/-- What a call of `createDM` that has committed answers. -/
def reply (s : DmDesk) (i : ℕ) : Option DmReply :=
  match s.service.tasks[i]?, s.rooms i with
  | some (.done (.wrote (.join joins new))), some room =>
    some ⟨room, new.isSome, joins.map RoomJoin.userId⟩
  | _, _ => none

/-- A call for the room of two users, by either of them, has answered. -/
def Answers (s : DmDesk) (i : ℕ) (ws a b : Ulid) (r : DmReply) : Prop :=
  ∃ actor peer id, s.calls[i]? = some (.createDM actor ws peer id) ∧ s.reply i = some r ∧
    (actor = a ∧ peer = b ∨ actor = b ∧ peer = a)

end DmDesk

/-! ## Keys that are waited for -/

namespace WorkspaceService

variable {s s' : WorkspaceService} {a : WorkspaceAction} {t : WorkspaceTask} {l : WorkspaceLock}
  {g : Grip}

theorem mem_held_of_waited {w : WorkspaceWrite} (h : l ∈ w.waited) : l ∈ w.held := by
  cases w with
  | join _ new =>
    cases new with
    | none => exact mem_append_left _ h
    | some =>
      obtain ⟨-, hrow⟩ := mem_ite_nil_right.mp h
      exact mem_append_right _ hrow
  | _ => cases h

theorem mem_held_of_mem_waited (h : l ∈ t.waited) : l ∈ t.held := by
  cases t with
  | addDM => exact mem_append_right _ (mem_held_of_waited h)
  | logging | commit =>
    exact mem_append_left _ (mem_append_right _ (mem_held_of_waited h))
  | _ => cases h

theorem waited_begins (c : WorkspaceCall) : c.begins.waited = [] := by
  unfold WorkspaceCall.begins
  split
  · rfl
  · split <;> rfl

theorem waited_decides {room : Option WorkspaceRoom} : (s.decides g room).waited = [] := by
  unfold decides
  split
  all_goals
    repeat' split
    all_goals rfl

/-- **A key that a call has by its turn** it had, or waited for. -/
theorem mem_waited_turn (h : l ∈ (s.turn t).waited) : l ∈ t.waited ∨ l ∈ t.asks := by
  cases t with
  | locking g room todo =>
    cases todo with
    | nil =>
      rw [show (s.turn (.locking g room [])).waited = [] from waited_decides] at h
      cases h
    | cons => cases h
  | getRoom | adding | welcoming =>
    simp only [turn] at h
    split at h <;> cases h
  | getInvite | consuming =>
    simp only [turn] at h
    split at h
    · split at h <;> cases h
    · cases h
  | insertRoomMember =>
    simp only [turn] at h
    split at h
    · split at h
      · cases h
      · obtain rfl := mem_singleton.mp h
        exact .inr rfl
    · cases h
  | insertRoom | insertDM =>
    simp only [turn] at h
    split at h
    · cases h
    · obtain ⟨-, hrow⟩ := mem_ite_nil_right.mp h
      obtain rfl := mem_singleton.mp hrow
      exact .inr rfl
  | addDM _ _ new todo =>
    cases todo with
    | nil => exact .inl h
    | cons =>
      simp only [turn] at h
      split at h
      · exact .inl h
      · cases new with
        | some => exact .inl h
        | none =>
          obtain ⟨j, hj, rfl⟩ := List.mem_map.mp h
          obtain hj | hj := mem_append.mp hj
          · exact .inl (List.mem_map_of_mem hj)
          · obtain rfl := mem_singleton.mp hj
            exact .inr rfl
  | logging _ _ todo =>
    cases todo with
    | nil =>
      simp only [turn] at h
      split at h
      · split at h
        · exact .inl h
        · cases h
      · exact .inl h
    | cons => exact .inl h
  | commit | done => exact .inl h
  | _ => cases h

/-- **Keys that were waited for do not conflict.** -/
theorem compatible_waited_act
    (hs : Conflicts.Compatible WorkspaceLock.Conflict WorkspaceTask.waited s.tasks)
    (hact : s.act a = some s') :
    Conflicts.Compatible WorkspaceLock.Conflict WorkspaceTask.waited s'.tasks := by
  cases step_of_act hact with
  | turn hi hfree =>
    refine hs.set WorkspaceLock.conflict_symm hi fun l hl => ?_
    obtain hmine | hasks := mem_waited_turn hl
    · exact .inl hmine
    · refine .inr fun j hj hne u hu l' hl' => ?_
      exact hfree l hasks j hj hne u hu l' (mem_held_of_mem_waited hl')
  | commit hi | fail hi =>
    exact hs.set WorkspaceLock.conflict_symm hi nofun
  | start c => exact hs.concat (waited_begins c)
  | _ => exact hs

end WorkspaceService

open WorkspaceService

/-! ## What calls are about to leave -/

/-- **What a call of `createDM` is about to leave**: the room of the two, new or found, with both in
it. Those who are still to be looked for are `todo`, and whoever joins was not there. -/
structure LeavesDM (d : WorkspaceTables) (g : Grip) (actor peer room : Ulid) (todo : List Ulid)
    (joins : List RoomJoin) (new : Option WorkspaceRoom) : Prop where
  isMember : (g.role actor).isMember ∧ (g.role peer).isMember
  isNew : ∀ row ∈ new, row.id = room ∧ row.IsDM g.workspaceId actor peer
  isOld : new = none → d.HasDM g.workspaceId actor peer room
  both : ∀ u, u = actor ∨ u = peer → u ∈ todo ∨ (∃ j ∈ joins, j.userId = u) ∨
    (new = none ∧ (d.roomMembers room u).isSome) ∨ (new.isSome ∧ ∃ r ∈ d.rooms, r.id = room)
  joins : ∀ j ∈ joins, j.roomId = room ∧ (j.userId = actor ∨ j.userId = peer) ∧
    (new = none → d.roomMembers room j.userId = none)
  todo : ∀ u ∈ todo, u = actor ∨ u = peer

namespace WorkspaceTask

/-- **A call of `createDM`, as far as it has come.** -/
def Makes (d : WorkspaceTables) (actor ws peer id : Ulid) (room : Option Ulid) :
    WorkspaceTask → Prop
  | members c ws' _ => c = .createDM actor ws peer id ∧ ws' = ws
  | locking g _ _ => g.call = .createDM actor ws peer id ∧ g.workspaceId = ws
  | insertDM g row => g.call = .createDM actor ws peer id ∧ g.workspaceId = ws ∧
      row = newDM id ws actor peer ∧ (g.role actor).isMember ∧ (g.role peer).isMember
  | addDM g r new todo joins => g.call = .createDM actor ws peer id ∧ g.workspaceId = ws ∧
      room = some r.id ∧ LeavesDM d g actor peer r.id todo joins new
  | commit g w logged => g.call = .createDM actor ws peer id ∧ g.workspaceId = ws ∧ logged = [] ∧
      ∃ r joins new, w = .join joins new ∧ room = some r ∧ LeavesDM d g actor peer r [] joins new
  | done (.wrote w) => ∃ r joins new, w = .join joins new ∧ room = some r ∧
      (∀ row ∈ new, row.id = r) ∧ d.HasDM ws actor peer r
  | done (.refused _) => True
  | _ => False

end WorkspaceTask

/-- What a call that is not one of `createDM` has written: no room for two, and who is removed is
removed from rooms of the workspace. -/
def WorkspaceWrite.Other (d : WorkspaceTables) : WorkspaceWrite → Prop
  | join _ (some row) => row.kind ≠ .roomDM
  | remove ws _ rooms => ∀ id ∈ rooms, d.InWorkspace ws id
  | _ => True

def WorkspaceCall.isDM : WorkspaceCall → Bool
  | createDM _ _ _ _ => true
  | _ => false

namespace WorkspaceTask

/-- **Another call, as far as it has come.** -/
def Other (d : WorkspaceTables) (room : Option Ulid) : WorkspaceTask → Prop
  | getRoom c _ | getInvite c _ | members c _ _ => c.isDM = false ∧ room = none
  | insertDM _ _ | addDM _ _ _ _ _ => False
  | locking g _ _ => g.call.isDM = false ∧ room = none
  | removing g _ rooms => room = none ∧ ∀ id ∈ rooms, d.InWorkspace g.workspaceId id
  | insertRoom _ row => room = none ∧ row.kind ≠ .roomDM
  | logging _ w _ _ | commit _ w _ => room = none ∧ w.Other d
  | _ => room = none

/-- A call, as far as it has come. -/
def Tells (d : WorkspaceTables) (room : Option Ulid) (t : WorkspaceTask) : WorkspaceCall → Prop
  | .createDM actor ws peer id => t.Makes d actor ws peer id room
  | _ => t.Other d room

end WorkspaceTask

namespace WorkspaceService

variable {s : WorkspaceService} {t : WorkspaceTask}
  {g : Grip} {actor ws peer id : Ulid} {room : Option Ulid}
  {r : Option WorkspaceRoom} {c : WorkspaceCall}

/-- A call of `createDM` decides to make the room, if both are members. -/
theorem decides_createDM (h : g.call = .createDM actor ws peer id) :
    s.decides g r = if !canCreateRoom (g.role actor) then refuse (.chat .notFound)
      else if (g.role peer).isMember then .insertDM g (newDM id ws actor peer)
      else refuse .userNotInWorkspace := by
  unfold decides
  rw [h]
  cases r <;> rfl

/-- The room as a call has it after its turn. -/
def roomAfter (s : WorkspaceService) (t : WorkspaceTask) (room : Option Ulid) : Option Ulid :=
  (s.turn t).dmRoom <|> room

/-- **A call of `createDM` goes on.** -/
theorem makes_turn (hk : s.tables.Keyed) (hcommit : ∀ g w logged, t ≠ .commit g w logged)
    (hdone : ∀ r, t ≠ .done r)
    (h : t.Makes s.tables actor ws peer id room) :
    (s.turn t).Makes s.tables actor ws peer id (s.roomAfter t room) := by
  cases t with
  | members c ws' r => exact h
  | locking g r todo =>
    obtain ⟨hcall, hws⟩ := h
    cases todo with
    | cons p todo => exact ⟨hcall, hws⟩
    | nil =>
      show (s.decides g r).Makes s.tables actor ws peer id _
      rw [decides_createDM hcall]
      split
      · exact trivial
      · next hactor =>
        split
        · next hpeer =>
          exact ⟨hcall, hws, rfl, by simpa [canCreateRoom] using hactor, hpeer⟩
        · exact trivial
  | insertDM g row =>
    obtain ⟨hcall, rfl, rfl, hactor, hpeer⟩ := h
    have htodo : ∀ u, u ∈ lockOrder g.call.users ↔ u = actor ∨ u = peer := fun u => by
      rw [mem_lockOrder, hcall]
      show u ∈ [actor, peer] ↔ _
      rw [mem_cons, mem_singleton]
    unfold roomAfter
    simp only [turn]
    split
    · next r hr =>
      have hcond := find?_some hr
      simp only [Bool.and_eq_true, decide_eq_true_eq] at hcond
      refine ⟨hcall, rfl, rfl, ⟨hactor, hpeer⟩, fun row hrow => absurd hrow (by simp), fun _ => ?_,
        fun u hu => Or.inl ((htodo u).mpr hu), fun j hj => absurd hj not_mem_nil,
        fun u hu => (htodo u).mp hu⟩
      exact ⟨r, mem_of_find?_eq_some hr, rfl, hcond.1.1, hcond.1.2, hcond.2⟩
    · refine ⟨hcall, rfl, rfl, ⟨hactor, hpeer⟩, fun row hrow => ?_, fun hnone =>
        absurd hnone (by simp),
        fun u hu => Or.inl ((htodo u).mpr hu), fun j hj => absurd hj not_mem_nil,
        fun u hu => (htodo u).mp hu⟩
      obtain rfl := some.inj hrow
      exact ⟨rfl, rfl, rfl, rfl⟩
  | addDM g r new todo joins =>
    obtain ⟨hcall, hws, rfl, hleaves⟩ := h
    cases todo with
    | nil => exact ⟨hcall, hws, rfl, r.id, joins, new, rfl, rfl, hleaves⟩
    | cons user todo =>
      have huser := hleaves.todo user (.head _)
      unfold roomAfter
      simp only [turn]
      split
      · next hthere =>
        refine ⟨hcall, hws, rfl, hleaves.isMember, hleaves.isNew, hleaves.isOld, fun u hu => ?_,
          hleaves.joins, fun u hu => hleaves.todo u (.tail _ hu)⟩
        obtain hmem | hrest := hleaves.both u hu
        · obtain rfl | hmem := mem_cons.mp hmem
          · cases new with
            | none => exact Or.inr (Or.inr (Or.inl ⟨rfl, hthere⟩))
            | some row =>
              obtain ⟨ws', ⟨r', hr', hid, -⟩, -⟩ := hk.inRooms r.id u hthere
              exact Or.inr (Or.inr (Or.inr ⟨rfl, r', hr', hid⟩))
          · exact Or.inl hmem
        · exact Or.inr hrest
      · next hnot =>
        refine ⟨hcall, hws, rfl, hleaves.isMember, hleaves.isNew, hleaves.isOld, fun u hu => ?_,
          fun j hj => ?_, fun u hu => hleaves.todo u (.tail _ hu)⟩
        · obtain hmem | ⟨j, hj, heq⟩ | hrest := hleaves.both u hu
          · obtain rfl | hmem := mem_cons.mp hmem
            · exact Or.inr (Or.inl ⟨_, mem_append_right _ (.head _), rfl⟩)
            · exact Or.inl hmem
          · exact Or.inr (Or.inl ⟨j, mem_append_left _ hj, heq⟩)
          · exact Or.inr (Or.inr hrest)
        · obtain hj | hj := mem_append.mp hj
          · exact hleaves.joins j hj
          · obtain rfl := mem_singleton.mp hj
            exact ⟨rfl, huser, fun _ => not_isSome_iff_eq_none.mp hnot⟩
  | commit g w logged => exact absurd rfl (hcommit g w logged)
  | done result => exact absurd rfl (hdone result)
  | _ => exact h.elim

/-- Another call decides to make no room for two. -/
theorem other_decides (h : g.call.isDM = false)
    (hnames : g.call.Names g.workspaceId) : (s.decides g r).Other s.tables none := by
  have hjoined : ∀ {ws}, g.call.workspaceId? = some ws → ∀ target,
      ∀ id ∈ s.tables.joined ws target, s.tables.InWorkspace g.workspaceId id :=
    fun hws target id hid => hnames.2 _ hws ▸ (mem_joined.mp hid).1
  have hrefuse : ∀ e, (refuse e).Other s.tables none := fun e => rfl
  unfold decides
  split
  · next hcall =>
    split
    · exact hrefuse _
    · split
      · refine ⟨rfl, ?_⟩
        split <;> exact trivial
      · exact hrefuse _
  · next hcall =>
    have hrooms := hjoined (by rw [hcall]; rfl)
    split
    · exact hrefuse _
    · split
      · split
        · exact ⟨rfl, hrooms _⟩
        · exact hrefuse _
      · split
        · exact hrefuse _
        · split
          · exact ⟨rfl, hrooms _⟩
          · exact hrefuse _
  · repeat' split
    all_goals first
      | exact hrefuse _
      | exact rfl
  · repeat' split
    all_goals first
      | exact hrefuse _
      | exact ⟨rfl, trivial⟩
  · repeat' split
    all_goals first
      | exact hrefuse _
      | exact rfl
  · repeat' split
    all_goals first
      | exact hrefuse _
      | exact rfl
  · repeat' split
    all_goals first
      | exact hrefuse _
      | exact rfl
  · repeat' split
    all_goals first
      | exact hrefuse _
      | exact ⟨rfl, nofun⟩
  · next hcall =>
    rw [hcall] at h
    exact absurd h (by simp [WorkspaceCall.isDM])
  · exact hrefuse _

/-- **Another call goes on.** -/
theorem other_turn (hfits : t.Fits s.tables) (h : t.Other s.tables room) :
    (s.turn t).Other s.tables (s.roomAfter t room) := by
  unfold roomAfter
  cases t with
  | getRoom =>
    obtain ⟨hcall, rfl⟩ := h
    simp only [turn]
    split
    · exact ⟨hcall, rfl⟩
    · rfl
  | getInvite =>
    obtain ⟨-, rfl⟩ := h
    simp only [turn]
    split
    · split <;> rfl
    · rfl
  | locking g r todo =>
    obtain ⟨hcall, rfl⟩ := h
    cases todo with
    | cons => exact ⟨hcall, rfl⟩
    | nil =>
      have hother := other_decides (s := s) (r := r) hcall hfits.2.1
      have hroom : ((s.decides g r).dmRoom <|> none) = none := by
        cases hdecides : s.decides g r with
        | addDM =>
          rw [hdecides] at hother
          exact hother.elim
        | _ => rfl
      show (s.decides g r).Other s.tables ((s.decides g r).dmRoom <|> none)
      rw [hroom]
      exact hother
  | removing => exact ⟨h.1, h.2⟩
  | adding | welcoming =>
    simp only [turn]
    split <;> exact h
  | consuming =>
    simp only [turn]
    split
    · split <;> exact h
    · exact h
  | insertRoomMember =>
    simp only [turn]
    split
    · split <;> exact ⟨h, trivial⟩
    · exact ⟨h, trivial⟩
  | insertRoom =>
    simp only [turn]
    split
    · exact h.1
    · exact h
  | insertDM | addDM => exact h.elim
  | logging _ _ todo =>
    cases todo with
    | nil =>
      simp only [turn]
      split
      · split
        · exact h
        · exact h.1
      · exact h
    | cons => exact h
  | members | commit | done => exact h
  | _ => exact ⟨h, trivial⟩

theorem tells_turn (hs : s.Sound) (hfits : t.Fits s.tables)
    (hcommit : ∀ g w logged, t ≠ .commit g w logged) (hdone : ∀ r, t ≠ .done r)
    (h : t.Tells s.tables room c) : (s.turn t).Tells s.tables (s.roomAfter t room) c := by
  cases c with
  | createDM => exact makes_turn hs.keyed hcommit hdone h
  | _ => exact other_turn hfits h

/-- A call begins. -/
theorem tells_begins (d : WorkspaceTables) (c : WorkspaceCall) : c.begins.Tells d none c := by
  unfold WorkspaceCall.begins
  cases c with
  | createDM =>
    split
    · exact trivial
    · exact ⟨rfl, rfl⟩
  | createWorkspace =>
    split
    · rfl
    · exact ⟨rfl, trivial⟩
  | acceptInvite =>
    split
    · rfl
    · exact ⟨rfl, rfl⟩
  | _ =>
    split
    · rfl
    · exact ⟨rfl, rfl⟩

/-- The room that a call has made or found is the one that is known. -/
theorem dmRoom_of_tells {d : WorkspaceTables} (h : t.Tells d room c) :
    (t.dmRoom <|> room) = room := by
  cases t with
  | addDM =>
    cases c with
    | createDM =>
      obtain ⟨-, -, rfl, -⟩ := h
      rfl
    | _ => exact h.elim
  | _ => rfl

end WorkspaceService

/-! ## What a commit does to rooms -/

/-- The room that is added. -/
def WorkspaceWrite.newRow : WorkspaceWrite → Option WorkspaceRoom
  | join _ new => new
  | _ => none

/-- The members of rooms that are added. -/
def WorkspaceWrite.added : WorkspaceWrite → List RoomJoin
  | accept _ _ _ joins => joins
  | join joins _ => joins
  | _ => []

/-- **Rooms stay**, and who they are for. -/
def RoomsStay (d d' : WorkspaceTables) : Prop :=
  ∀ r ∈ d.rooms, ∃ r' ∈ d'.rooms, r'.id = r.id ∧ r'.workspaceId = r.workspaceId ∧
    r'.kind = r.kind ∧ r'.dmKey = r.dmKey

section Perform

variable {d d' d'' : WorkspaceTables} {w : WorkspaceWrite} {g : Grip} {actor peer room : Ulid}
  {todo : List Ulid} {joins : List RoomJoin} {new : Option WorkspaceRoom} {t : WorkspaceTask}
  {ws id user : Ulid}

theorem RoomsStay.trans (h : RoomsStay d d') (h' : RoomsStay d' d'') : RoomsStay d d'' := by
  intro r hr
  obtain ⟨r', hr', hid, hws, hkind, hkey⟩ := h r hr
  obtain ⟨r'', hr'', hid', hws', hkind', hkey'⟩ := h' r' hr'
  exact ⟨r'', hr'', hid'.trans hid, hws'.trans hws, hkind'.trans hkind, hkey'.trans hkey⟩

theorem RoomsStay.hasDM (h : RoomsStay d d') (hdm : d.HasDM ws actor peer id) :
    d'.HasDM ws actor peer id := by
  obtain ⟨r, hr, rfl, hws, hkind, hkey⟩ := hdm
  obtain ⟨r', hr', hid, hws', hkind', hkey'⟩ := h r hr
  exact ⟨r', hr', hid, hws'.trans hws, hkind'.trans hkind, hkey'.trans hkey⟩

theorem RoomsStay.inWorkspace (h : RoomsStay d d') (hin : d.InWorkspace ws id) :
    d'.InWorkspace ws id := by
  obtain ⟨r, hr, rfl, rfl⟩ := hin
  obtain ⟨r', hr', hid, hws, -⟩ := h r hr
  exact ⟨r', hr', hid, hws⟩

/-- A commit adds at most one room, whose id is new. -/
theorem rooms_perform (hd : d.perform w = some d') :
    d'.rooms = d.rooms ++ w.newRow.toList ∧ ∀ row ∈ w.newRow, ∀ r ∈ d.rooms, r.id ≠ row.id := by
  have hsame : ∀ {d' : WorkspaceTables}, d'.rooms = d.rooms → d'.rooms = d.rooms ++
    [] := fun h => by
    rw [append_nil]
    exact h
  cases w with
  | workspace | invite =>
    obtain ⟨-, heq⟩ := ite_none_left_eq_some.mp hd
    cases heq
    exact ⟨hsame rfl, nofun⟩
  | join _ new =>
    cases new with
    | none =>
      cases hd
      exact ⟨hsame rfl, nofun⟩
    | some =>
      obtain ⟨hnew, heq⟩ := ite_none_left_eq_some.mp hd
      cases heq
      refine ⟨rfl, fun row' hrow' r hr hid => hnew ?_⟩
      cases hrow'
      exact find?_isSome.mpr ⟨r, hr, decide_eq_true hid⟩
  | _ =>
    cases hd
    exact ⟨hsame rfl, nofun⟩

/-- **What becomes of a member of a room** in a commit: nothing, or the user is removed from the
workspace, or is added. -/
theorem roomMembers_perform (hd : d.perform w = some d') (id user : Ulid) :
    d'.roomMembers id user = d.roomMembers id user ∨
    (∃ ws rooms, w = .remove ws user rooms ∧ id ∈ rooms ∧ d'.roomMembers id user = none ∧
      d'.members ws user = none) ∨
    ((d'.roomMembers id user).isSome ∧ ∃ j ∈ w.added, j.roomId = id ∧ j.userId = user) := by
  have hjoins : ∀ {d₀ : WorkspaceTables} {joins : List RoomJoin},
      d₀.roomMembers id user = d.roomMembers id user →
      (d₀.addJoins joins).roomMembers id user = d.roomMembers id user ∨
        ((d₀.addJoins joins).roomMembers id user).isSome ∧
          ∃ j ∈ joins, j.roomId = id ∧ j.userId = user := by
    intro d₀ joins hsame
    by_cases hadded : ∃ j ∈ joins, j.roomId = id ∧ j.userId = user
    · exact .inr ⟨isSome_addJoins.mpr (.inl hadded), hadded⟩
    · refine .inl ?_
      unfold WorkspaceTables.addJoins
      have hfind : joins.find? (fun j => decide (j.roomId = id ∧ j.userId = user)) = none :=
        find?_eq_none.mpr fun j hj hcond => hadded ⟨j, hj, of_decide_eq_true hcond⟩
      show (joins.find? _).elim (d₀.roomMembers id user) _ = _
      rw [hfind]
      exact hsame
  cases w with
  | workspace | invite =>
    obtain ⟨-, heq⟩ := ite_none_left_eq_some.mp hd
    cases heq
    exact .inl rfl
  | remove ws target rooms =>
    cases hd
    by_cases hgone : id ∈ rooms ∧ user = target
    · obtain ⟨hid, rfl⟩ := hgone
      refine .inr (.inl ⟨ws, rooms, rfl, hid, if_pos ⟨hid, rfl⟩, ?_⟩)
      rw [members_deleteMember, if_pos ⟨rfl, rfl⟩]
    · exact .inl (if_neg hgone)
  | accept =>
    cases hd
    exact (hjoins rfl).imp_right .inr
  | join _ new =>
    cases new with
    | none =>
      cases hd
      exact (hjoins rfl).imp_right .inr
    | some =>
      obtain ⟨-, heq⟩ := ite_none_left_eq_some.mp hd
      cases heq
      exact (hjoins rfl).imp_right .inr
  | _ =>
    cases hd
    exact .inl rfl

theorem roomsStay_map {f : WorkspaceRoom → WorkspaceRoom} (hf : ∀ r, (f r).id = r.id ∧
    (f r).workspaceId = r.workspaceId ∧ (f r).kind = r.kind ∧ (f r).dmKey = r.dmKey) :
    RoomsStay d { d with rooms := d.rooms.map f } := fun r hr =>
  ⟨f r, List.mem_map_of_mem hr, hf r⟩

theorem fields_addLogs (logged : List Ulid) (r : WorkspaceRoom) :
    (if r.id ∈ logged then { r with lastMessageSeq := r.lastMessageSeq + 1 } else r).id = r.id ∧
    (if r.id ∈ logged then { r with lastMessageSeq := r.lastMessageSeq + 1 } else r).workspaceId =
      r.workspaceId ∧
    (if r.id ∈ logged then { r with lastMessageSeq := r.lastMessageSeq + 1 } else r).kind = r.kind ∧
    (if r.id ∈ logged then { r with lastMessageSeq := r.lastMessageSeq + 1 } else r).dmKey =
      r.dmKey := by
  split <;> exact ⟨rfl, rfl, rfl, rfl⟩

theorem roomsStay_perform (hd : d.perform w = some d') (logged : List Ulid) :
    RoomsStay d (d'.addLogs logged) := by
  have hgrow : RoomsStay d d' := fun r hr =>
    ⟨r, (rooms_perform hd).1 ▸ mem_append_left _ hr, rfl, rfl, rfl, rfl⟩
  exact hgrow.trans (roomsStay_map (fields_addLogs _))

/-- What a call is about to leave stays so, where others take nobody out of the room and add none of
those who join. -/
theorem LeavesDM.mono (h : LeavesDM d g actor peer room todo joins new) (hrooms : RoomsStay d d')
    (hstay : new = none → ∀ u, u = actor ∨ u = peer → (d.roomMembers room u).isSome →
      (d'.roomMembers room u).isSome)
    (hnone : new = none → ∀ j ∈ joins, d'.roomMembers room j.userId = none) :
    LeavesDM d' g actor peer room todo joins new where
  isMember := h.isMember
  isNew := h.isNew
  isOld hnew := hrooms.hasDM (h.isOld hnew)
  both u hu := by
    refine (h.both u hu).imp_right (Or.imp_right (Or.imp ?_ ?_))
    · exact fun ⟨hnew, hthere⟩ => ⟨hnew, hstay hnew u hu hthere⟩
    · rintro ⟨hnew, r, hr, hid⟩
      obtain ⟨r', hr', hid', -⟩ := hrooms r hr
      exact ⟨hnew, r', hr', hid'.trans hid⟩
  joins j hj := ⟨(h.joins j hj).1, (h.joins j hj).2.1, fun hnew => hnone hnew j hj⟩
  todo := h.todo

theorem WorkspaceWrite.Other.mono (h : w.Other d) (hrooms : RoomsStay d d') : w.Other d' := by
  cases w with
  | remove => exact fun id hid => hrooms.inWorkspace (h id hid)
  | join _ new =>
    cases new with
    | none => exact trivial
    | some => exact h
  | _ => exact trivial

/-- A call stays as far as it has come. -/
theorem WorkspaceTask.Tells.mono {c : WorkspaceCall} {r : Option Ulid} (h : t.Tells d r c)
    (hrooms : RoomsStay d d')
    (hleaves : ∀ {g actor peer room todo joins new}, t.grip = some g → t.written = .join joins new →
      LeavesDM d g actor peer room todo joins new → LeavesDM d' g actor peer room todo joins new) :
    t.Tells d' r c := by
  cases c with
  | createDM _ ws =>
    cases t with
    | addDM =>
      exact ⟨h.1, h.2.1, h.2.2.1, hleaves rfl rfl h.2.2.2⟩
    | commit =>
      obtain ⟨hcall, hws, hlogged, room, joins, new, rfl, hroom, hl⟩ := h
      exact ⟨hcall, hws, hlogged, room, joins, new, rfl, hroom, hleaves rfl rfl hl⟩
    | done result =>
      cases result with
      | wrote =>
        obtain ⟨room, joins, new, rfl, hroom, hid, hdm⟩ := h
        exact ⟨room, joins, new, rfl, hroom, hid, hrooms.hasDM hdm⟩
      | refused => exact trivial
      | alreadyMember => exact h.elim
    | _ => exact h
  | _ =>
    cases t with
    | removing => exact ⟨h.1, fun id hid => hrooms.inWorkspace (h.2 id hid)⟩
    | logging | commit => exact ⟨h.1, h.2.mono hrooms⟩
    | _ => exact h

end Perform

/-! ## What a step leaves -/

namespace WorkspaceService

variable {s s' : WorkspaceService} {a : WorkspaceAction} {t : WorkspaceTask} {g gk : Grip}
  {i k : ℕ} {actor peer room : Ulid} {todo logged : List Ulid} {joins : List RoomJoin}
  {new : Option WorkspaceRoom} {w : WorkspaceWrite} {d : WorkspaceTables}

theorem holds_of_fits (hgrip : t.grip = some g) (h : t.Fits d) : g.Holds d := by
  cases t with
  | getRoom | getInvite | members | done => cases hgrip
  | revoking | welcoming =>
    cases hgrip
    exact h
  | _ =>
    cases hgrip
    exact h.1

/-- **A commit leaves what another call is about to leave**: whom that call has locked is not
removed, and whom it adds nobody else adds. -/
theorem leavesDM_commits (hs : s.Sound) (hs' : (s.commits k w logged d).Sound)
    (hwaited : Conflicts.Compatible WorkspaceLock.Conflict WorkspaceTask.waited s.tasks)
    (hk : s.tasks[k]? = some (.commit gk w logged)) (hd : s.tables.perform w = some d)
    (hother : ∀ ws target rooms, w = .remove ws target rooms →
      ∀ id ∈ rooms, s.tables.InWorkspace ws id)
    (hne : i ≠ k) (hi : s.tasks[i]? = some t) (hgrip : t.grip = some g)
    (hwritten : t.written = .join joins new)
    (h : LeavesDM s.tables g actor peer room todo joins new) :
    LeavesDM (d.addLogs logged) g actor peer room todo joins new := by
  have hholds := holds_of_fits hgrip (hs.fits t (mem_of_getElem? hi))
  have hholds' : g.Holds (d.addLogs logged) := by
    refine holds_of_fits hgrip (hs'.fits t (mem_of_getElem? (i := i) ?_))
    show (s.tasks.set k _)[i]? = some t
    rw [getElem?_set_ne hne.symm]
    exact hi
  have hmember : ∀ u, u = actor ∨ u = peer → ∃ m, (u, m) ∈ g.got := by
    rintro u (rfl | rfl)
    · obtain ⟨m, hm, -⟩ := Grip.mem_got h.isMember.1
      exact ⟨m, hm⟩
    · obtain ⟨m, hm, -⟩ := Grip.mem_got h.isMember.2
      exact ⟨m, hm⟩
  have hin : new = none → s.tables.InWorkspace g.workspaceId room := fun hnew => by
    obtain ⟨r, hr, hid, hws, -⟩ := h.isOld hnew
    exact ⟨r, hr, hid, hws⟩
  refine h.mono (roomsStay_perform hd logged) (fun hnew u hu hthere => ?_) fun hnew j hj => ?_
  · show (d.roomMembers room u).isSome
    obtain hsame | ⟨ws, rooms, rfl, hmem, -, hgone⟩ | ⟨hsome, -⟩ := roomMembers_perform hd room u
    · rw [hsame]
      exact hthere
    · -- the row of the member is locked, so it is still there
      obtain ⟨m, hm⟩ := hmember u hu
      obtain rfl := hs.keyed.inWorkspace_unique (hother ws u rooms rfl room hmem) (hin hnew)
      have hstill : d.members g.workspaceId u = some m := hholds' _ hm
      exact nomatch hgone.symm.trans hstill
    · exact hsome
  · show d.roomMembers room j.userId = none
    obtain ⟨hroom, huser, habsent⟩ := h.joins j hj
    obtain hsame | ⟨ws, rooms, -, -, hgone, -⟩ | ⟨-, j', hj', hid, huser'⟩ :=
      roomMembers_perform hd room j.userId
    · rw [hsame]
      exact habsent hnew
    · exact hgone
    · have hfits := (hs.fits _ (mem_of_getElem? hk)).2
      cases w with
      | accept =>
        obtain ⟨rfl, hnone, -, hall⟩ := hfits
        obtain ⟨rfl, hin'⟩ := hall j' hj'
        obtain ⟨m, hm⟩ := hmember j.userId huser
        have hroom' : s.tables.InWorkspace gk.workspaceId room := hid ▸ hin'
        rw [hs.keyed.inWorkspace_unique hroom' (hin hnew), huser'] at hnone
        exact nomatch hnone.symm.trans (hholds _ hm)
      | join _ new' =>
        cases new' with
        | none =>
          -- both would have waited for the same key
          refine absurd ?_ (hwaited i k t _ hne hi hk j.lock ?_ j'.lock ?_)
          · show WorkspaceLock.roomMember j.roomId j.userId = .roomMember j'.roomId j'.userId
            rw [hroom, hid, huser']
          · show j.lock ∈ t.written.waited
            rw [hwritten, hnew]
            exact List.mem_map_of_mem hj
          · exact List.mem_map_of_mem hj'
        | some row =>
          obtain ⟨r, hr, hrid, -⟩ := hin hnew
          have hrow : room = row.id := hid.symm.trans (hfits.2 j' hj').2
          exact absurd (hrid.trans hrow) ((rooms_perform hd).2 row rfl r hr)
      | _ => cases hj'

theorem roomsStay_refl (d : WorkspaceTables) : RoomsStay d d := fun r hr =>
  ⟨r, hr, rfl, rfl, rfl, rfl⟩

/-- The row of a room is written: whom it is for stays. -/
theorem rooms_of_writeRoom {id : Ulid} {f : WorkspaceRoom → WorkspaceRoom}
    (h : s.writeRoom id f = some s') (hf : ∀ r, (f r).id = r.id ∧
      (f r).workspaceId = r.workspaceId ∧
      (f r).kind = r.kind ∧ (f r).dmKey = r.dmKey) :
    RoomsStay s.tables s'.tables ∧ RoomsStay s'.tables s.tables ∧
      s'.tables.roomMembers = s.tables.roomMembers ∧ s'.tasks = s.tasks := by
  unfold writeRoom at h
  obtain ⟨-, heq⟩ := ite_none_right_eq_some.mp h
  cases heq
  have hfields : ∀ r, (if r.id = id then f r else r).id = r.id ∧
      (if r.id = id then f r else r).workspaceId = r.workspaceId ∧
      (if r.id = id then f r else r).kind = r.kind ∧
      (if r.id = id then f r else r).dmKey = r.dmKey := fun r => by
    split
    · exact hf r
    · exact ⟨rfl, rfl, rfl, rfl⟩
  refine ⟨roomsStay_map hfields, fun r hr => ?_, rfl, rfl⟩
  obtain ⟨r₀, hr₀, rfl⟩ := List.mem_map.mp hr
  obtain ⟨hid, hws, hkind, hkey⟩ := hfields r₀
  exact ⟨r₀, hr₀, hid.symm, hws.symm, hkind.symm, hkey.symm⟩

/-- A step of a call that is not a commit. -/
inductive Moves (s : WorkspaceService) : WorkspaceAction → WorkspaceService → Prop
  | turn {i : ℕ} {t : WorkspaceTask} : s.tasks[i]? = some t → (∀ l ∈ t.asks, s.FreeLock i l) →
      (∀ g w logged, t ≠ .commit g w logged) → (∀ result, t ≠ .done result) →
      Moves s (.step i) (s.goes i (s.turn t))
  | fail {i : ℕ} {t : WorkspaceTask} : s.tasks[i]? = some t → (∀ result, t ≠ .done result) →
      Moves s (.fail i) (s.goes i (refuse (.chat .failed)))
  | start (c : WorkspaceCall) : Moves s (.start c) { s with tasks := s.tasks ++ [c.begins] }
  | other {a : WorkspaceAction} {s' : WorkspaceService} : (∀ c, a ≠ .start c) →
      s'.tasks = s.tasks → RoomsStay s.tables s'.tables → RoomsStay s'.tables s.tables →
      s'.tables.roomMembers = s.tables.roomMembers → Moves s a s'

/-- **What a step is for rooms**: a commit, or nothing changes but what they show. -/
theorem rooms_of_act (hact : s.act a = some s') :
    (∃ i g w logged d, a = .step i ∧ s.tasks[i]? = some (.commit g w logged) ∧
      s.tables.perform w = some d ∧ s' = s.commits i w logged d) ∨ Moves s a s' := by
  cases a with
  | configure | tick =>
    cases hact
    exact .inr (.other nofun rfl (roomsStay_refl _) (roomsStay_refl _) rfl)
  | start c =>
    cases hact
    exact .inr (.start c)
  | fail i =>
    cases step_of_act hact with
    | fail hi hdone => exact .inr (.fail hi hdone)
    | room ha => exact absurd rfl (ha i).2
  | step i =>
    cases step_of_act hact with
    | commit hi hd => exact .inl ⟨i, _, _, _, _, rfl, hi, hd, rfl⟩
    | turn hi hfree hcommit hdone => exact .inr (.turn hi hfree hcommit hdone)
    | room ha => exact absurd rfl (ha i).1
  | _ =>
    obtain ⟨hstay, hback, hmembers, htasks⟩ := rooms_of_writeRoom hact fun r => ⟨rfl, rfl, rfl, rfl⟩
    exact .inr (.other nofun htasks hstay hback hmembers)

end WorkspaceService

/-! ## What holds in every run -/

namespace DmDesk

variable {s s' : DmDesk} {a : WorkspaceAction} {t : WorkspaceTask} {i j : ℕ} {id : Ulid}
  {c : WorkspaceCall}

/-- **Every call is as far as it tells.** -/
structure Told (s : DmDesk) : Prop where
  sound : s.service.Sound
  waited : Conflicts.Compatible WorkspaceLock.Conflict WorkspaceTask.waited s.service.tasks
  length : s.calls.length = s.service.tasks.length
  unmade : ∀ i, s.service.tasks.length ≤ i → s.rooms i = none
  tells : ∀ (i : ℕ) (c : WorkspaceCall) (t : WorkspaceTask), s.calls[i]? = some c →
    s.service.tasks[i]? = some t → t.Tells s.service.tables (s.rooms i) c

theorem Told.exists_call (h : s.Told) (hi : s.service.tasks[i]? = some t) :
    ∃ c, s.calls[i]? = some c ∧ t.Tells s.service.tables (s.rooms i) c := by
  have hlt : i < s.calls.length := h.length ▸ (List.getElem?_eq_some_iff.mp hi).1
  exact ⟨s.calls[i], getElem?_eq_getElem hlt, h.tells i _ t (getElem?_eq_getElem hlt) hi⟩

/-- Of a call that is not one of `createDM` no room is known. -/
theorem room_eq_none_of_other {d : WorkspaceTables} {room : Option Ulid} (h : t.Other d room) :
    room = none := by
  cases t with
  | getRoom | getInvite | members | locking => exact h.2
  | removing | insertRoom | logging | commit =>
    exact h.1
  | insertDM | addDM => exact h.elim
  | _ => exact h

theorem tells_refuse {d : WorkspaceTables} {room : Option Ulid}
    {e : WorkspaceError} (h : t.Tells d room c) : (WorkspaceService.refuse e).Tells d room c := by
  cases c with
  | createDM => exact trivial
  | _ => exact room_eq_none_of_other h

/-- A call commits. -/
theorem tells_commit {d d' : WorkspaceTables} {room : Option Ulid} {g : Grip}
    {w : WorkspaceWrite} {logged : List Ulid} (hd : d.perform w = some d')
    (h : (WorkspaceTask.commit g w logged).Tells d room c) :
    (WorkspaceTask.done (.wrote w)).Tells (d'.addLogs logged) room c := by
  cases c with
  | createDM =>
    obtain ⟨-, rfl, rfl, r, joins, new, rfl, rfl, hleaves⟩ := h
    refine ⟨r, joins, new, rfl, rfl, fun row hrow => (hleaves.isNew row hrow).1, ?_⟩
    refine RoomsStay.hasDM (roomsStay_map (fields_addLogs _)) ?_
    have hrooms := (rooms_perform hd).1
    cases new with
    | none =>
      obtain ⟨r', hr', hid, hdm⟩ := hleaves.isOld rfl
      exact ⟨r', hrooms ▸ mem_append_left _ hr', hid, hdm⟩
    | some row =>
      obtain ⟨hid, hdm⟩ := hleaves.isNew row rfl
      exact ⟨row, hrooms ▸ mem_append_right _ (.head _), hid, hdm⟩
  | _ => exact h.1

/-- Who is removed from rooms is removed from rooms of the workspace. -/
theorem Told.removes (h : s.Told) {g : Grip} {ws target : Ulid} {rooms logged : List Ulid}
    (hi : s.service.tasks[i]? = some (.commit g (.remove ws target rooms) logged)) :
    ∀ id ∈ rooms, s.service.tables.InWorkspace ws id := by
  obtain ⟨c, -, htells⟩ := h.exists_call hi
  cases c with
  | createDM =>
    obtain ⟨-, -, -, r, joins, new, heq, -⟩ := htells
    exact nomatch heq
  | _ => exact htells.2

theorem Told.rooms_eq (h : s.Told) (hi : s.service.tasks[i]? = some t) :
    (t.dmRoom <|> s.rooms i) = s.rooms i := by
  obtain ⟨c, -, htells⟩ := h.exists_call hi
  exact dmRoom_of_tells htells

/-- One call has gone on. -/
theorem Told.set (h : s.Told) {k : ℕ} {t' : WorkspaceTask} {service : WorkspaceService}
    (hk : s.service.tasks[k]? = some t) (htasks : service.tasks = s.service.tasks.set k t')
    (hsound : service.Sound)
    (hwaited : Conflicts.Compatible WorkspaceLock.Conflict WorkspaceTask.waited service.tasks)
    (hmine : ∀ c, t.Tells s.service.tables (s.rooms k) c →
      t'.Tells service.tables (t'.dmRoom <|> s.rooms k) c)
    (hothers : ∀ i u c, i ≠ k → s.service.tasks[i]? = some u →
      u.Tells s.service.tables (s.rooms i) c → u.Tells service.tables (s.rooms i) c) :
    Told ⟨service, s.calls, fun i =>
      (service.tasks[i]?.bind WorkspaceTask.dmRoom) <|> s.rooms i⟩ := by
  refine ⟨hsound, hwaited, ?_, fun i hi => ?_, fun i c u hc hu => ?_⟩
  · rw [htasks, length_set]
    exact h.length
  · have hnone : service.tasks[i]? = none := getElem?_eq_none hi
    show (service.tasks[i]?.bind WorkspaceTask.dmRoom <|> s.rooms i) = none
    rw [hnone]
    refine h.unmade i ?_
    rw [htasks, length_set] at hi
    exact hi
  · show u.Tells service.tables (service.tasks[i]?.bind WorkspaceTask.dmRoom <|> s.rooms i) c
    dsimp only at hu hc
    rw [hu]
    rw [htasks] at hu
    obtain ⟨rfl, rfl⟩ | ⟨hne, hu⟩ := getElem?_set_cases hu
    · exact hmine c (h.tells i c t hc hk)
    · show u.Tells service.tables (u.dmRoom <|> s.rooms i) c
      rw [h.rooms_eq hu]
      exact hothers i u c hne hu (h.tells i c u hc hu)

/-- **A step keeps it.** -/
theorem Told.act (h : s.Told) (hact : s.act a = some s') : s'.Told := by
  obtain ⟨service, hservice, rfl⟩ := map_eq_some_iff.mp hact
  have hsound := h.sound.act hservice
  have hwaited := compatible_waited_act h.waited hservice
  obtain ⟨k, g, w, logged, d, rfl, hk, hd, rfl⟩ | hmoves := rooms_of_act hservice
  · rw [show s.calls ++ (WorkspaceAction.step k).started = s.calls from append_nil _]
    refine h.set hk rfl hsound hwaited (fun c hc => tells_commit hd hc) fun i u c hne hu hc => ?_
    refine hc.mono (roomsStay_perform hd logged) fun hgrip hwritten hleaves => ?_
    exact leavesDM_commits h.sound hsound h.waited hk hd
      (fun ws target rooms heq => h.removes (heq ▸ hk)) hne hu hgrip hwritten hleaves
  · cases hmoves with
    | @turn k t hk hfree hcommit hdone =>
      rw [show s.calls ++ (WorkspaceAction.step k).started = s.calls from append_nil _]
      exact h.set hk rfl hsound hwaited (fun c hc => tells_turn (s := s.service)
        h.sound (h.sound.fits t (mem_of_getElem? hk)) hcommit hdone hc) fun _ _ _ _ _ hc => hc
    | @fail k t hk hdone =>
      rw [show s.calls ++ (WorkspaceAction.fail k).started = s.calls from append_nil _]
      exact h.set hk rfl hsound hwaited (fun c hc => tells_refuse hc) fun _ _ _ _ _ hc => hc
    | start c =>
      refine ⟨hsound, hwaited, ?_, fun i hi => ?_, fun i c' u hc hu => ?_⟩
      · show (s.calls ++ [c]).length = (s.service.tasks ++ [c.begins]).length
        rw [length_append, length_append, h.length]
        rfl
      · have hnone : (s.service.tasks ++ [c.begins])[i]? = none := getElem?_eq_none hi
        show ((s.service.tasks ++ [c.begins])[i]?.bind WorkspaceTask.dmRoom <|> s.rooms i) = none
        rw [hnone]
        exact h.unmade i (le_trans (by rw [length_append]; exact Nat.le_add_right _ _) hi)
      · dsimp only at hu hc ⊢
        rw [hu]
        obtain ⟨rfl, rfl⟩ | hold := getElem?_concat_cases hu
        · rw [← h.length, show s.calls ++ (WorkspaceAction.start c).started = s.calls ++
            [c] from rfl,
            getElem?_concat_length] at hc
          cases hc
          rw [h.unmade _ le_rfl]
          have hbegins := tells_begins s.service.tables c
          rw [← dmRoom_of_tells hbegins] at hbegins
          exact hbegins
        · have hlt : i < s.calls.length := h.length ▸ (List.getElem?_eq_some_iff.mp hold).1
          rw [getElem?_append_left hlt] at hc
          show u.Tells s.service.tables (u.dmRoom <|> s.rooms i) c'
          rw [h.rooms_eq hold]
          exact h.tells i c' u hc hold
    | other hstart htasks hstay _ hmembers =>
      have hstarted : a.started = [] := by
        cases a with
        | start c => exact absurd rfl (hstart c)
        | _ => rfl
      rw [hstarted, append_nil]
      refine ⟨hsound, hwaited, ?_, fun i hi => ?_, fun i c u hc hu => ?_⟩
      · show s.calls.length = service.tasks.length
        rw [htasks]
        exact h.length
      · have hnone : service.tasks[i]? = none := getElem?_eq_none hi
        show (service.tasks[i]?.bind WorkspaceTask.dmRoom <|> s.rooms i) = none
        rw [hnone]
        exact h.unmade i (htasks ▸ hi)
      · dsimp only at hu hc ⊢
        rw [hu]
        rw [htasks] at hu
        show u.Tells service.tables (u.dmRoom <|> s.rooms i) c
        rw [h.rooms_eq hu]
        refine (h.tells i c u hc hu).mono hstay fun {_ _ _ room _ joins _} _ _ hleaves =>
          hleaves.mono hstay (fun _ u _ hthere => ?_) fun hnew j hj => ?_
        · rw [hmembers]
          exact hthere
        · rw [hmembers]
          exact (hleaves.joins j hj).2.2 hnew

theorem told_of_init : Told ⟨.empty, [], fun _ => none⟩ :=
  ⟨WorkspaceService.sound_of_reachable ⟨_, rfl, .refl⟩, Conflicts.compatible_nil, rfl,
    fun _ _ => rfl, fun _ _ _ hc => nomatch hc⟩

/-! ## One room for two -/

/-- A call has made a room. -/
def Created (s : DmDesk) (i : ℕ) (id : Ulid) : Prop :=
  s.rooms i = some id ∧ ∃ joins row,
    s.service.tasks[i]? = some (.done (.wrote (.join joins (some row))))

/-- **There is one room for two users, and one call has made it**; and who is about to make one has
found none. -/
structure Sole (s : DmDesk) : Prop where
  one : s.service.tables.OneDM
  fresh : ∀ t ∈ s.service.tasks, ∀ row ∈ t.written.newRow, row.kind = .roomDM →
    ∀ r ∈ s.service.tables.rooms, r.kind = .roomDM → r.workspaceId = row.workspaceId →
      r.dmKey ≠ row.dmKey
  created : ∀ r ∈ s.service.tables.rooms, r.kind = .roomDM → ∃ i, s.Created i r.id
  creator : ∀ i j id, s.Created i id → s.Created j id → i = j

end DmDesk

/-- **A room that is about to be added** was so before, or is one with a name, or was looked for. -/
theorem WorkspaceService.newRow_turn {s : WorkspaceService} {t : WorkspaceTask}
    {row : WorkspaceRoom}
    (h : row ∈ (s.turn t).written.newRow) : row ∈ t.written.newRow ∨ (∃ g, t = .insertRoom g row) ∨
      ∃ g, t = .insertDM g row ∧ ∀ r ∈ s.tables.rooms, r.kind = .roomDM →
        r.workspaceId = row.workspaceId → r.dmKey ≠ row.dmKey := by
  cases t with
  | locking g r todo =>
    cases todo with
    | cons => cases h
    | nil =>
      have hnone : ∀ {u : WorkspaceTask}, u.written.newRow = none → row ∉ u.written.newRow :=
        fun hu hrow => nomatch hu.symm.trans hrow
      refine absurd h ?_
      show row ∉ (s.decides g r).written.newRow
      unfold decides
      split
      all_goals
        repeat' split
        all_goals exact hnone rfl
  | getRoom | adding | welcoming =>
    simp only [turn] at h
    split at h <;> cases h
  | members c ws r | removing g target rooms | promoting g actor target | revoking g invite now
  | joining => cases h
  | insertRoom g =>
    simp only [turn] at h
    split at h
    · cases h
    · cases h
      exact .inr (.inl ⟨g, rfl⟩)
  | insertDM g =>
    simp only [turn] at h
    split at h
    · cases h
    · next hfind =>
      cases h
      refine .inr (.inr ⟨g, rfl, fun r hr hkind hws hkey => ?_⟩)
      refine find?_eq_none.mp hfind r hr ?_
      rw [hkind, hws, hkey]
      simp
  | addDM _ _ _ todo =>
    cases todo with
    | nil => exact .inl h
    | cons =>
      simp only [turn] at h
      split at h <;> exact .inl h
  | logging _ _ todo =>
    cases todo with
    | nil =>
      simp only [turn] at h
      split at h
      · split at h
        · exact .inl h
        · cases h
      · exact .inl h
    | cons => exact .inl h
  | commit | done => exact .inl h
  | _ =>
    simp only [turn] at h
    split at h
    · split at h <;> cases h
    · cases h

namespace DmDesk

variable {s s' : DmDesk} {a : WorkspaceAction} {t : WorkspaceTask} {i j : ℕ} {id : Ulid}
  {r : WorkspaceRoom} {service : WorkspaceService}

theorem exists_of_mem_commits {d d' : WorkspaceTables} {w : WorkspaceWrite} {logged : List Ulid}
    (hd : d.perform w = some d') (hr : r ∈ (d'.addLogs logged).rooms) :
    ∃ r₀, (r₀ ∈ d.rooms ∨ r₀ ∈ w.newRow) ∧ r₀.id = r.id ∧ r₀.workspaceId = r.workspaceId ∧
      r₀.kind = r.kind ∧ r₀.dmKey = r.dmKey := by
  obtain ⟨r₀, hr₀, rfl⟩ := List.mem_map.mp hr
  obtain ⟨hid, hws, hkind, hkey⟩ := fields_addLogs logged r₀
  refine ⟨r₀, ?_, hid.symm, hws.symm, hkind.symm, hkey.symm⟩
  rw [(rooms_perform hd).1, mem_append, mem_toList] at hr₀
  exact hr₀

theorem Told.eq_of_id (h : s.Told) {r' : WorkspaceRoom} (hr : r ∈ s.service.tables.rooms)
    (hr' : r' ∈ s.service.tables.rooms) (hid : r.id = r'.id) : r = r' :=
  inj_on_of_nodup_map h.sound.keyed.rooms hr hr' hid

/-- Where a call has written, a step that does not commit changes nothing. -/
theorem wrote_of_moves {service' : WorkspaceService} (hmoves : service.Moves a service')
    {w : WorkspaceWrite} : service'.tasks[i]? = some (.done (.wrote w)) ↔
      service.tasks[i]? = some (.done (.wrote w)) := by
  have hset : ∀ {k t t'}, service.tasks[k]? = some t → (∀ r, t ≠ .done r) →
      (∀ w, t' ≠ .done (.wrote w)) → ((service.tasks.set k t')[i]? = some (.done (.wrote w)) ↔
        service.tasks[i]? = some (.done (.wrote w))) := by
    intro k t t' hk hdone ht'
    constructor
    · intro hi
      obtain ⟨-, heq⟩ | ⟨-, hu⟩ := getElem?_set_cases hi
      · exact absurd heq.symm (ht' _)
      · exact hu
    · intro hi
      have hne : i ≠ k := by
        rintro rfl
        exact hdone _ (some.inj (hk.symm.trans hi))
      rw [getElem?_set_ne hne.symm]
      exact hi
  cases hmoves with
  | turn hk _ _ hdone =>
    exact hset hk hdone fun w => turn_ne_wrote hdone w
  | fail hk hdone => exact hset hk hdone nofun
  | start c =>
    have hbegins : ∀ w, c.begins ≠ .done (.wrote w) := by
      unfold WorkspaceCall.begins
      split
      · exact nofun
      · split <;> exact nofun
    constructor
    · intro hi
      obtain ⟨-, heq⟩ | hold := getElem?_concat_cases hi
      · exact absurd heq.symm (hbegins w)
      · exact hold
    · intro hi
      show (service.tasks ++ [c.begins])[i]? = _
      rw [getElem?_append_left (List.getElem?_eq_some_iff.mp hi).1]
      exact hi
  | other _ htasks => rw [htasks]

/-- A step of a call that does not commit makes no room. -/
theorem created_of_moves (hmoves : s.service.Moves a service) :
    Created ⟨service, s.calls ++ a.started, fun i =>
      (service.tasks[i]?.bind WorkspaceTask.dmRoom) <|> s.rooms i⟩ i id ↔ s.Created i id := by
  have hroom : ∀ w, service.tasks[i]? = some (.done (.wrote w)) →
      (service.tasks[i]?.bind WorkspaceTask.dmRoom <|> s.rooms i) = s.rooms i := fun w hi => by
    rw [hi]
    rfl
  constructor
  · rintro ⟨hid, joins, row, hi⟩
    exact ⟨(hroom _ hi).symm.trans hid, joins, row, (wrote_of_moves hmoves).mp hi⟩
  · rintro ⟨hid, joins, row, hi⟩
    have hi' := (wrote_of_moves hmoves).mpr hi
    exact ⟨(hroom _ hi').trans hid, joins, row, hi'⟩

/-- A step of a call that does not commit looks for the room that it is about to make. -/
theorem fresh_of_moves (h : s.Told) (hsole : s.Sole)
    (hmoves : s.service.Moves a service) : ∀ t ∈ service.tasks, ∀ row ∈ t.written.newRow,
      row.kind = .roomDM → ∀ r ∈ service.tables.rooms, r.kind = .roomDM →
        r.workspaceId = row.workspaceId → r.dmKey ≠ row.dmKey := by
  cases hmoves with
  | @turn k t hk hfree hcommit hdone =>
    intro u hu row hrow hkind
    obtain hu | rfl := mem_or_eq_of_mem_set hu
    · exact hsole.fresh u hu row hrow hkind
    · obtain hold | ⟨g, rfl⟩ | ⟨g, rfl, hnone⟩ := newRow_turn hrow
      · exact hsole.fresh t (mem_of_getElem? hk) row hold hkind
      · obtain ⟨c, -, htells⟩ := h.exists_call hk
        cases c with
        | createDM => exact htells.elim
        | _ => exact absurd hkind htells.2
      · exact hnone
  | fail =>
    intro u hu row hrow hkind
    obtain hu | rfl := mem_or_eq_of_mem_set hu
    · exact hsole.fresh u hu row hrow hkind
    · cases hrow
  | start c =>
    intro u hu row hrow hkind
    obtain hu | hu := mem_append.mp hu
    · exact hsole.fresh u hu row hrow hkind
    · obtain rfl := mem_singleton.mp hu
      have hnone : c.begins.written = .nothing ∨ ∃ id owner,
        c.begins.written = .workspace id owner := by
        unfold WorkspaceCall.begins
        split
        · exact .inl rfl
        · split
          · exact .inr ⟨_, _, rfl⟩
          all_goals exact .inl rfl
      obtain heq | ⟨_, _, heq⟩ := hnone <;> rw [heq] at hrow <;> cases hrow
  | other _ htasks _ hback =>
    intro u hu row hrow hkind r hr hrkind hws
    obtain ⟨r₀, hr₀, -, hws₀, hkind₀, hkey₀⟩ := hback r hr
    rw [← hkey₀]
    exact hsole.fresh u (htasks ▸ hu) row hrow hkind r₀ hr₀ (hkind₀.trans hrkind) (hws₀.trans hws)

section Commit

variable {k : ℕ} {g : Grip} {w : WorkspaceWrite} {logged : List Ulid} {d : WorkspaceTables}

/-- The state after a commit. -/
abbrev committed (s : DmDesk) (k : ℕ) (w : WorkspaceWrite) (logged : List Ulid)
    (d : WorkspaceTables) : DmDesk :=
  ⟨s.service.commits k w logged d, s.calls, fun i =>
    ((s.service.commits k w logged d).tasks[i]?.bind WorkspaceTask.dmRoom) <|> s.rooms i⟩

/-- A commit makes the room that it adds, and no other. -/
theorem created_committed (h : s.Told) (hk : s.service.tasks[k]? = some (.commit g w logged)) :
    (s.committed k w logged d).Created i id ↔
      s.Created i id ∨ i = k ∧ s.rooms k = some id ∧ ∃ joins row, w = .join joins (some row) := by
  have hlt : k < s.service.tasks.length := (List.getElem?_eq_some_iff.mp hk).1
  have hself : (s.service.commits k w logged d).tasks[k]? = some (.done (.wrote w)) :=
    getElem?_set_self hlt
  have hother : ∀ i, i ≠ k → (s.service.commits k w logged d).tasks[i]? = s.service.tasks[i]? :=
    fun i hne => getElem?_set_ne hne.symm
  have hnot : ¬s.Created k id := by
    rintro ⟨-, joins, row, hi⟩
    exact nomatch hk.symm.trans hi
  by_cases hik : i = k
  · subst hik
    have hroom : (s.committed i w logged d).rooms i = s.rooms i := by
      show ((s.service.commits i w logged d).tasks[i]?.bind WorkspaceTask.dmRoom <|> s.rooms i) = _
      rw [hself]
      rfl
    constructor
    · rintro ⟨hid, joins, row, hi⟩
      have hw := some.inj (hself.symm.trans hi)
      exact .inr ⟨rfl, hroom ▸ hid, joins, row, by injection hw with hw; injection hw⟩
    · rintro (hold | ⟨-, hid, joins, row, rfl⟩)
      · exact absurd hold hnot
      · exact ⟨hroom.trans hid, joins, row, hself⟩
  · have hroom : ∀ {u}, s.service.tasks[i]? = some u →
        (s.committed k w logged d).rooms i = s.rooms i := fun {u} hu => by
      show ((s.service.commits k w logged d).tasks[i]?.bind WorkspaceTask.dmRoom <|> s.rooms i) = _
      rw [hother i hik, hu]
      exact h.rooms_eq hu
    constructor
    · rintro ⟨hid, joins, row, hi⟩
      have hi' := (hother i hik).symm.trans hi
      exact .inl ⟨(hroom hi').symm.trans hid, joins, row, hi'⟩
    · rintro (⟨hid, joins, row, hi⟩ | ⟨rfl, -⟩)
      · exact ⟨(hroom hi).trans hid, joins, row, (hother i hik).trans hi⟩
      · exact absurd rfl hik

/-- Who is about to add a room for two is a call of `createDM`, and knows it. -/
theorem Told.newRow (h : s.Told) (hk : s.service.tasks[k]? = some (.commit g w logged))
    (row : WorkspaceRoom) (hrow : row ∈ w.newRow) :
    row.kind = .roomDM ∧ s.rooms k = some row.id ∨ row.kind ≠ .roomDM ∧ s.rooms k = none := by
  obtain ⟨c, -, htells⟩ := h.exists_call hk
  cases c with
  | createDM =>
    obtain ⟨-, -, -, r, joins, new, rfl, hroom, hleaves⟩ := htells
    obtain ⟨hid, -, hkind, -⟩ := hleaves.isNew row hrow
    exact .inl ⟨hkind, hid ▸ hroom⟩
  | _ =>
    obtain ⟨hroom, hother⟩ := htells
    cases w with
    | join _ new =>
      obtain rfl : new = some row := hrow
      exact .inr ⟨hother, hroom⟩
    | _ => cases hrow

/-- The room that a call has made is there. -/
theorem Told.exists_room (h : s.Told) (hcreated : s.Created i id) :
    ∃ r ∈ s.service.tables.rooms, r.id = id := by
  obtain ⟨hid, joins, row, hi⟩ := hcreated
  obtain ⟨c, -, htells⟩ := h.exists_call hi
  cases c with
  | createDM =>
    obtain ⟨room, joins', new, -, hroom, -, r, hr, hrid, -⟩ := htells
    exact ⟨r, hr, hrid.trans (some.inj (hroom.symm.trans hid))⟩
  | _ =>
    have hnone : s.rooms i = none := htells
    exact nomatch hnone.symm.trans hid

/-- **A commit keeps one room for two.** -/
theorem Sole.commits (h : s.Told) (h' : (s.committed k w logged d).Told) (hsole : s.Sole)
    (hk : s.service.tasks[k]? = some (.commit g w logged))
      (hd : s.service.tables.perform w = some d) :
    (s.committed k w logged d).Sole := by
  have hfresh := hsole.fresh _ (mem_of_getElem? hk)
  have hids := (rooms_perform hd).2
  have hfrom := fun r (hr : r ∈ (d.addLogs logged).rooms) => exists_of_mem_commits hd hr
  refine ⟨fun r hr r' hr' hkind hkind' hws hkey => ?_,
    fun u hu row hrow hkind r hr hrkind hws => ?_,
    fun r hr hkind => ?_, fun i j id hi hj => ?_⟩
  · obtain ⟨r₀, hr₀, hid₀, hws₀, hkind₀, hkey₀⟩ := hfrom r hr
    obtain ⟨r₁, hr₁, hid₁, hws₁, hkind₁, hkey₁⟩ := hfrom r' hr'
    have hws₀₁ : r₀.workspaceId = r₁.workspaceId := (hws₀.trans hws).trans hws₁.symm
    have hkey₀₁ : r₀.dmKey = r₁.dmKey := (hkey₀.trans hkey).trans hkey₁.symm
    refine h'.eq_of_id hr hr' (hid₀.symm.trans (Eq.trans (congrArg WorkspaceRoom.id ?_) hid₁))
    obtain hold₀ | hnew₀ := hr₀ <;> obtain hold₁ | hnew₁ := hr₁
    · exact hsole.one r₀ hold₀ r₁ hold₁ (hkind₀.trans hkind) (hkind₁.trans hkind') hws₀₁ hkey₀₁
    · exact absurd hkey₀₁ (hfresh r₁ hnew₁ (hkind₁.trans hkind') r₀ hold₀
        (hkind₀.trans hkind) hws₀₁)
    · exact absurd hkey₀₁.symm
        (hfresh r₀ hnew₀ (hkind₀.trans hkind) r₁ hold₁ (hkind₁.trans hkind') hws₀₁.symm)
    · exact some.inj (Eq.trans (Eq.symm hnew₀) hnew₁)
  · obtain ⟨i, hi⟩ := mem_iff_getElem?.mp hu
    obtain ⟨-, rfl⟩ | ⟨hne, hiu⟩ := getElem?_set_cases hi
    · cases hrow
    · obtain ⟨r₀, hr₀, -, hws₀, hkind₀, hkey₀⟩ := hfrom r hr
      rw [← hkey₀]
      obtain hold | hnew := hr₀
      · exact hsole.fresh u (mem_of_getElem? hiu) row hrow hkind r₀ hold
          (hkind₀.trans hrkind) (hws₀.trans hws)
      · -- both would have waited for the same key
        intro hkey
        have hlock : ∀ {x : WorkspaceWrite} {row : WorkspaceRoom}, row ∈ x.newRow →
            row.kind = .roomDM → row.key ∈ x.waited := fun {x row} hx hxkind => by
          cases x with
          | join _ new =>
            obtain rfl : new = some row := hx
            exact mem_ite_nil_right.mpr ⟨hxkind, .head _⟩
          | _ => cases hx
        refine h.waited i k u _ hne hiu hk row.key (hlock hrow hkind) r₀.key
          (hlock hnew (hkind₀.trans hrkind)) ?_
        unfold WorkspaceRoom.key
        rw [if_pos hkind, if_pos (hkind₀.trans hrkind), hkey, hws₀, hws]
        exact rfl
  · obtain ⟨r₀, hr₀, hid₀, -, hkind₀, -⟩ := hfrom r hr
    obtain hold | hnew := hr₀
    · obtain ⟨i, hi⟩ := hsole.created r₀ hold (hkind₀.trans hkind)
      exact ⟨i, (created_committed h hk).mpr (.inl (hid₀ ▸ hi))⟩
    · obtain ⟨-, hroom⟩ | ⟨hne, -⟩ := h.newRow hk r₀ hnew
      · refine ⟨k, (created_committed h hk).mpr (.inr ⟨rfl, hid₀ ▸ hroom, ?_⟩)⟩
        cases w with
        | join joins new =>
          obtain rfl : new = some r₀ := hnew
          exact ⟨joins, r₀, rfl⟩
        | _ => cases hnew
      · exact absurd (hkind₀.trans hkind) hne
  · -- a room that is added was not there
    have hnew : ∀ {i}, s.Created i id → ¬(s.rooms k = some id ∧ ∃ joins row,
      w = .join joins (some row)) := by
      rintro i hold ⟨hroom, joins, row, rfl⟩
      obtain ⟨r, hr, hrid⟩ := h.exists_room hold
      obtain ⟨-, hk'⟩ | ⟨-, hk'⟩ := h.newRow hk row rfl
      · exact hids row rfl r hr (hrid.trans (Option.some.inj (hroom.symm.trans hk')))
      · exact nomatch hroom.symm.trans hk'
    obtain hold | ⟨hik, hmade⟩ := (created_committed h hk).mp hi <;>
      obtain hold' | ⟨hjk, hmade'⟩ := (created_committed h hk).mp hj
    · exact hsole.creator i j id hold hold'
    · exact absurd hmade' (hnew hold)
    · exact absurd hmade (hnew hold')
    · exact hik.trans hjk.symm

end Commit

variable {r : DmReply}

/-- **A step keeps one room for two.** -/
theorem Sole.act (h : s.Told) (hsole : s.Sole) (hact : s.act a = some s') : s'.Sole := by
  have h' := h.act hact
  obtain ⟨service, hservice, rfl⟩ := map_eq_some_iff.mp hact
  obtain ⟨k, g, w, logged, d, rfl, hk, hd, rfl⟩ | hmoves := rooms_of_act hservice
  · rw [show s.calls ++ (WorkspaceAction.step k).started = s.calls from append_nil _] at h' ⊢
    exact hsole.commits h h' hk hd
  · have hback : RoomsStay service.tables s.service.tables := by
      cases hmoves with
      | other _ _ _ hback => exact hback
      | _ => exact roomsStay_refl _
    refine ⟨fun r hr r' hr' hkind hkind' hws hkey => ?_, fresh_of_moves h hsole hmoves,
      fun r hr hkind => ?_, fun i j id hi hj => ?_⟩
    · obtain ⟨r₀, hr₀, hid₀, hws₀, hkind₀, hkey₀⟩ := hback r hr
      obtain ⟨r₁, hr₁, hid₁, hws₁, hkind₁, hkey₁⟩ := hback r' hr'
      refine h'.eq_of_id hr hr' (hid₀.symm.trans (Eq.trans (congrArg WorkspaceRoom.id ?_) hid₁))
      exact hsole.one r₀ hr₀ r₁ hr₁ (hkind₀.trans hkind) (hkind₁.trans hkind')
        ((hws₀.trans hws).trans hws₁.symm) ((hkey₀.trans hkey).trans hkey₁.symm)
    · obtain ⟨r₀, hr₀, hid₀, -, hkind₀, -⟩ := hback r hr
      obtain ⟨i, hi⟩ := hsole.created r₀ hr₀ (hkind₀.trans hkind)
      exact ⟨i, (created_of_moves hmoves).mpr (hid₀ ▸ hi)⟩
    · exact hsole.creator i j id ((created_of_moves hmoves).mp hi) ((created_of_moves hmoves).mp hj)

theorem kept_of_reachable (hs : system.Reachable s) : s.Told ∧ s.Sole := by
  refine hs.invariant (I := fun s => s.Told ∧ s.Sole) (fun s hinit => ?_) fun s a s' h _ hact =>
    ⟨h.1.act hact, h.2.act h.1 hact⟩
  obtain rfl : s = ⟨.empty, [], fun _ => none⟩ := hinit
  exact ⟨told_of_init, fun _ hr => absurd hr not_mem_nil, fun _ ht =>
    absurd ht not_mem_nil,
    fun _ hr => absurd hr not_mem_nil, fun _ _ _ hi => nomatch hi.1⟩

/-! ## What calls answer -/

/-- A call that has answered has committed. -/
theorem reply_eq_some : s.reply i = some r ↔ ∃ joins new, s.rooms i = some r.room ∧
    s.service.tasks[i]? = some (.done (.wrote (.join joins new))) ∧ r.created = new.isSome ∧
      r.joined = joins.map RoomJoin.userId := by
  unfold reply
  constructor
  · intro h
    split at h
    · next joins new room hi hroom =>
      cases h
      exact ⟨joins, new, hroom, hi, rfl, rfl⟩
    · exact nomatch h
  · rintro ⟨joins, new, hroom, hi, hcreated, hjoined⟩
    rw [hi, hroom]
    show some (DmReply.mk r.room new.isSome (joins.map RoomJoin.userId)) = some r
    rw [← hcreated, ← hjoined]

/-- The two users of a key. -/
theorem eq_or_swap_of_key {a b c d : Ulid} (h : (min a b, max a b) = (min c d, max c d)) :
    a = c ∧ b = d ∨ a = d ∧ b = c := by
  obtain ⟨hmin, hmax⟩ := Prod.mk.inj h
  obtain hab | hab := le_total a b <;> obtain hcd | hcd := le_total c d
  · rw [min_eq_left hab, min_eq_left hcd] at hmin
    rw [max_eq_right hab, max_eq_right hcd] at hmax
    exact .inl ⟨hmin, hmax⟩
  · rw [min_eq_left hab, min_eq_right hcd] at hmin
    rw [max_eq_right hab, max_eq_left hcd] at hmax
    exact .inr ⟨hmin, hmax⟩
  · rw [min_eq_right hab, min_eq_left hcd] at hmin
    rw [max_eq_left hab, max_eq_right hcd] at hmax
    exact .inr ⟨hmax, hmin⟩
  · rw [min_eq_right hab, min_eq_right hcd] at hmin
    rw [max_eq_left hab, max_eq_left hcd] at hmax
    exact .inl ⟨hmax, hmin⟩

theorem hasDM_of_eq_or_swap {d : WorkspaceTables} {ws actor peer a b : Ulid}
    (h : d.HasDM ws actor peer id) (hpair : actor = a ∧ peer = b ∨ actor = b ∧ peer = a) :
    d.HasDM ws a b id := by
  obtain ⟨rfl, rfl⟩ | ⟨rfl, rfl⟩ := hpair
  · exact h
  · obtain ⟨r, hr, hid, hws, hkind, hkey⟩ := h
    exact ⟨r, hr, hid, hws, hkind, by rw [hkey, min_comm, max_comm]⟩

theorem Told.hasDM (h : s.Told) {ws a b : Ulid} (hr : s.Answers i ws a b r) :
    s.service.tables.HasDM ws a b r.room := by
  obtain ⟨actor, peer, id, hc, hreply, hpair⟩ := hr
  obtain ⟨joins, new, hroom, hi, -, -⟩ := reply_eq_some.mp hreply
  obtain ⟨room, -, -, -, hroom', -, hdm⟩ := h.tells i _ _ hc hi
  obtain rfl := some.inj (hroom.symm.trans hroom')
  exact hasDM_of_eq_or_swap hdm hpair

/-- **All answer with one room, and one of them has made it.** -/
theorem one_creator (h : s.Told) (hsole : s.Sole) {ws a b : Ulid}
    (hanswered : ∃ i r, s.Answers i ws a b r) : ∃ room, s.service.tables.HasDM ws a b room ∧
      (∀ i r, s.Answers i ws a b r → r.room = room) ∧
        ∃! i, ∃ r, s.Answers i ws a b r ∧ r.created = true := by
  obtain ⟨i₀, r₀, h₀⟩ := hanswered
  obtain ⟨row, hrow, hid, hws, hkind, hkey⟩ := h.hasDM h₀
  have hsame : ∀ i r, s.Answers i ws a b r → r.room = r₀.room := fun i r hr => by
    obtain ⟨row', hrow', hid', hws', hkind', hkey'⟩ := h.hasDM hr
    rw [← hid', ← hid, hsole.one row' hrow' row hrow hkind' hkind (hws'.trans hws.symm)
      (hkey'.trans hkey.symm)]
  refine ⟨r₀.room, h.hasDM h₀, hsame, ?_⟩
  obtain ⟨k, hroom, joins, new, hk⟩ := hid ▸ hsole.created row hrow hkind
  obtain ⟨c, hc, htells⟩ := h.exists_call hk
  have hmade : ∃ actor peer id, c = .createDM actor ws peer id ∧
      (actor = a ∧ peer = b ∨ actor = b ∧ peer = a) := by
    cases c with
    | createDM actor _ peer id =>
      obtain ⟨room, -, -, -, hroom', -, row', hrow', hid', hws', -, hkey'⟩ := htells
      have hrows : row' = row :=
        h.eq_of_id hrow' hrow (hid'.trans ((some.inj (hroom'.symm.trans hroom)).trans hid.symm))
      rw [hrows] at hws' hkey'
      obtain rfl := hws.symm.trans hws'
      exact ⟨actor, peer, id, rfl, eq_or_swap_of_key (some.inj (hkey'.symm.trans hkey))⟩
    | _ =>
      have hnone : s.rooms k = none := htells
      exact nomatch hnone.symm.trans hroom
  obtain ⟨actor, peer, id, rfl, hpair⟩ := hmade
  have hanswer : s.Answers k ws a b ⟨r₀.room, true, joins.map RoomJoin.userId⟩ :=
    ⟨actor, peer, id, hc, reply_eq_some.mpr ⟨joins, some new, hroom, hk, rfl, rfl⟩, hpair⟩
  refine ⟨k, ⟨_, hanswer, rfl⟩, fun i hi => ?_⟩
  obtain ⟨r, hr, hcreated⟩ := hi
  have hroom' := hsame i r hr
  obtain ⟨-, -, -, -, hreply, -⟩ := hr
  obtain ⟨joins', new', hroomi, hi, hnew', -⟩ := reply_eq_some.mp hreply
  obtain ⟨row', rfl⟩ := isSome_iff_exists.mp (hnew'.symm.trans hcreated)
  exact hsole.creator i k r₀.room ⟨hroomi.trans (congrArg some hroom'), joins', row', hi⟩
    ⟨hroom, joins, new, hk⟩

/-- What a commit that adds members of rooms leaves. -/
theorem perform_join {d d' : WorkspaceTables} {joins : List RoomJoin} {new : Option WorkspaceRoom}
    (hd : d.perform (.join joins new) = some d') : d'.members = d.members ∧
      ∀ id user, (d'.roomMembers id user).isSome ↔
        (∃ j ∈ joins, j.roomId = id ∧ j.userId = user) ∨ (d.roomMembers id user).isSome := by
  cases new with
  | none =>
    cases hd
    exact ⟨rfl, fun _ _ => isSome_addJoins⟩
  | some =>
    obtain ⟨-, heq⟩ := ite_none_left_eq_some.mp hd
    cases heq
    exact ⟨rfl, fun _ _ => isSome_addJoins⟩

/-- **When a call commits both users are in the workspace and in the room**, and it answers that
those have joined whose rows it has added. -/
theorem both_at_commit (h : s.Told) (hact : s.act a = some s') {actor ws peer : Ulid}
    (hcall : s'.calls[i]? = some (.createDM actor ws peer id)) (hbefore : s.reply i = none)
    (hafter : s'.reply i = some r) :
    (∀ user, user = actor ∨ user = peer → (s'.service.tables.members ws user).isSome ∧
      (s'.service.tables.roomMembers r.room user).isSome) ∧
    ∀ room user, room = r.room ∧ user ∈ r.joined ↔ s.service.tables.roomMembers room user = none ∧
        (s'.service.tables.roomMembers room user).isSome := by
  obtain ⟨service, hservice, rfl⟩ := map_eq_some_iff.mp hact
  obtain ⟨joins, new, hroom, hi, hcreated, hjoined⟩ := reply_eq_some.mp hafter
  have hstill : s.service.tasks[i]? ≠ some (.done (.wrote (.join joins new))) := by
    intro hold
    have hroom' : s.rooms i = some r.room := by
      have hvar : (service.tasks[i]?.bind WorkspaceTask.dmRoom <|> s.rooms i) = some r.room := hroom
      rw [show service.tasks[i]? = _ from hi] at hvar
      exact hvar
    exact nomatch hbefore.symm.trans (reply_eq_some.mpr
      ⟨joins, new, hroom', hold, hcreated, hjoined⟩)
  obtain ⟨k, g, w, logged, d, rfl, hk, hd, rfl⟩ | hmoves := rooms_of_act hservice
  · obtain ⟨rfl, heq⟩ | ⟨-, hold⟩ := getElem?_set_cases hi
    · obtain ⟨rfl⟩ : WorkspaceWrite.join joins new = w := by
        injection heq with heq
        injection heq
      rw [show s.calls ++ (WorkspaceAction.step i).started = s.calls from append_nil _] at hcall
      obtain ⟨-, rfl, rfl, room, _, _, heq, hroom', hleaves⟩ := h.tells i _ _ hcall hk
      obtain ⟨rfl, rfl⟩ := WorkspaceWrite.join.inj heq
      obtain rfl : room = r.room := by
        have hvar : ((s.service.commits i (.join joins new) [] d).tasks[i]?.bind
          WorkspaceTask.dmRoom <|> s.rooms i) = some r.room := hroom
        rw [show (s.service.commits i (.join joins new) [] d).tasks[i]? = _ from hi] at hvar
        exact some.inj (hroom'.symm.trans hvar)
      obtain ⟨hmembers, hjoins⟩ := perform_join hd
      have hholds := (h.sound.fits _ (mem_of_getElem? hk)).1
      have hnew : ∀ row ∈ new, ∀ x ∈ s.service.tables.rooms, x.id ≠ r.room := fun row hrow x hx =>
        (hleaves.isNew row hrow).1 ▸ (rooms_perform hd).2 row hrow x hx
      refine ⟨fun user huser => ⟨?_, ?_⟩, fun room user =>
        ⟨fun ⟨hroom, huser⟩ => ?_, fun ⟨hnone, hsome⟩ => ?_⟩⟩
      · show (d.members g.workspaceId user).isSome
        have hmem : ∃ m, (user, m) ∈ g.got := by
          obtain rfl | rfl := huser
          · obtain ⟨m, hm, -⟩ := Grip.mem_got hleaves.isMember.1
            exact ⟨m, hm⟩
          · obtain ⟨m, hm, -⟩ := Grip.mem_got hleaves.isMember.2
            exact ⟨m, hm⟩
        obtain ⟨m, hm⟩ := hmem
        rw [hmembers, hholds _ hm]
        rfl
      · refine (hjoins r.room user).mpr ?_
        obtain hnil | ⟨j, hj, rfl⟩ | ⟨-, hthere⟩ | ⟨hsome, x, hx, hid⟩ := hleaves.both user huser
        · cases hnil
        · exact .inl ⟨j, hj, (hleaves.joins j hj).1, rfl⟩
        · exact .inr hthere
        · obtain ⟨row, rfl⟩ := isSome_iff_exists.mp hsome
          exact absurd hid (hnew row rfl x hx)
      · rw [hjoined] at huser
        obtain ⟨j, hj, rfl⟩ := List.mem_map.mp huser
        obtain ⟨hjroom, -, hjnone⟩ := hleaves.joins j hj
        subst hroom
        refine ⟨?_, (hjoins r.room j.userId).mpr (.inl ⟨j, hj, hjroom, rfl⟩)⟩
        cases hcase : new with
        | none => exact hjnone hcase
        | some row =>
          refine not_isSome_iff_eq_none.mp fun hsome => ?_
          obtain ⟨ws', ⟨x, hx, hid, -⟩, -⟩ := h.sound.keyed.inRooms r.room j.userId hsome
          exact hnew row hcase x hx hid
      · obtain ⟨j, hj, rfl, rfl⟩ | hthere := (hjoins room user).mp hsome
        · exact ⟨(hleaves.joins j hj).1, hjoined ▸ List.mem_map_of_mem hj⟩
        · rw [hnone] at hthere
          cases hthere
    · exact absurd hold hstill
  · exact absurd ((wrote_of_moves hmoves).mp hi) hstill

/-- **One room for two.** In every run there is one room for two users of a workspace; all calls for
it answer with it, and just one says that it was created. When a call commits both users are in the
workspace and in the room, and those have joined whose rows it has added. Keys of rooms are the same
just of the same two users, and each of the two has the other one as peer. -/
theorem one_dm_room_per_pair (hs : system.Reachable s) {ulidString : Ulid → List Char}
    {parseStrict : List Char → Option Ulid}
    (hparse : ∀ u, u.IsId → parseStrict (ulidString u) = some u)
      (hcolon : ∀ u, u.IsId → ':' ∉ ulidString u) :
    s.service.tables.OneDM ∧
    (∀ ws a b, (∃ i r, s.Answers i ws a b r) → ∃ room, s.service.tables.HasDM ws a b room ∧
      (∀ i r, s.Answers i ws a b r → r.room = room) ∧
        ∃! i, ∃ r, s.Answers i ws a b r ∧ r.created = true) ∧
    (∀ action s', s.act action = some s' → ∀ i actor ws peer id r,
      s'.calls[i]? = some (.createDM actor ws peer id) → s.reply i = none → s'.reply i = some r →
        (∀ user, user = actor ∨ user = peer → (s'.service.tables.members ws user).isSome ∧
          (s'.service.tables.roomMembers r.room user).isSome) ∧
        ∀ room user, room = r.room ∧ user ∈ r.joined ↔
          s.service.tables.roomMembers room user = none ∧
            (s'.service.tables.roomMembers room user).isSome) ∧
    ∀ a b c d : Ulid, a.IsId → b.IsId → c.IsId → d.IsId → a ≠ b → c ≠ d →
      DmKeys.dmKey ulidString a b = DmKeys.dmKey ulidString b a ∧
      (DmKeys.dmKey ulidString a b = DmKeys.dmKey ulidString c d ↔
        (min a b, max a b) = (min c d, max c d)) ∧
      (DmKeys.dmKey ulidString a b = DmKeys.dmKey ulidString c d → a = c ∧ b = d ∨ a = d ∧ b = c) ∧
      DmKeys.dmPeerID ulidString parseStrict (DmKeys.dmKey ulidString a b) a = some b := by
  obtain ⟨htold, hsole⟩ := kept_of_reachable hs
  refine ⟨hsole.one, fun ws a b => one_creator htold hsole,
    fun action s' hact i actor ws peer id r =>
    both_at_commit htold hact, fun a b c d ha hb hc hd hab hcd => ?_⟩
  have hinj := eq_of_dmKey_eq (a := a) (b := b) (c := c) (d := d) hparse hcolon ha hb hc hd
  refine ⟨dmKey_comm, ⟨fun heq => ?_, fun heq => ?_⟩, hinj, dmPeerID_dmKey hparse hcolon ha hb hab⟩
  · obtain ⟨rfl, rfl⟩ | ⟨rfl, rfl⟩ := hinj heq
    · rfl
    · rw [min_comm, max_comm]
  · obtain ⟨rfl, rfl⟩ | ⟨rfl, rfl⟩ := eq_or_swap_of_key heq
    · rfl
    · exact dmKey_comm

/-- Both ask for the room at once; one of them leaves and comes back, and the other asks again. -/
def reunion : List WorkspaceAction :=
  WorkspaceService.populated ++ [.start (.createDM 1 10 2 30), .start (.createDM 2 10 1 31)] ++
    List.replicate 5 (.step 4) ++ List.replicate 4 (.step 5) ++ List.replicate 4 (.step 4) ++
    List.replicate 5 (.step 5) ++ [.start (.removeMember 2 10 2)] ++ List.replicate 5 (.step 6) ++
    [.start (.acceptInvite 2 "x")] ++ List.replicate 7 (.step 7) ++
    [.start (.createDM 1 10 2 32)] ++ List.replicate 9 (.step 8)

/-- Only the one who has come back has joined, and the room is the one that was made first. -/
theorem one_dm_room_per_pair_again : ∃ s, system.Reachable s ∧
    (∃ room r, s.Answers 8 10 1 2 r ∧ r.room = room ∧ r.joined = [2] ∧
      ∃! i, ∃ r, s.Answers i 10 1 2 r ∧ r.created = true) ∧
    DmKeys.dmPeerID DmKeys.encode DmKeys.decode (DmKeys.dmKey DmKeys.encode 7 3) 7 = some 3 := by
  have hrun : (system.run ⟨.empty, [], fun _ => none⟩ reunion).any (fun s =>
      decide (s.calls[8]? = some (.createDM 1 10 2 32) ∧
        s.reply 8 = some ⟨30, false, [2]⟩)) = true := by
    decide +kernel
  obtain ⟨s, hreach, htest⟩ := TransitionSystem.exists_of_run hrun rfl
  obtain ⟨hcall, hreply⟩ := of_decide_eq_true htest
  obtain ⟨-, hone, -, hkeys⟩ := one_dm_room_per_pair hreach (fun _ => decode_encode)
    fun u _ => colon_notMem_encode u
  have hanswer : s.Answers 8 10 1 2 ⟨30, false, [2]⟩ := ⟨1, 2, 32, hcall, hreply, .inl ⟨rfl, rfl⟩⟩
  obtain ⟨room, -, hsame, hcreator⟩ := hone 10 1 2 ⟨8, _, hanswer⟩
  have his : ∀ n < 8, Ulid.IsId n := fun n hn => hn.trans (by norm_num)
  have h7 := his 7 (by decide)
  have h3 := his 3 (by decide)
  exact ⟨s, hreach, ⟨room, _, hanswer, hsame 8 _ hanswer, rfl, hcreator⟩,
    (hkeys 7 3 7 3 h7 h3 h7 h3 (by decide) (by decide)).2.2.2⟩

end DmDesk

end Hibari
