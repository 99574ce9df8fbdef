import Hibari.HubAccess

/-!
# What a revalidation removes

A revalidation of a user takes the topics that the user's connections are subscribed to, asks the
database which of them the user may still read, and removes the subscriptions to the others. The
three are separate critical sections and reads, and other calls run in between (`UserRevalidation`).

What it takes is a set of topics, not of subscriptions. A subscription that was not there when the
set was taken, whose call asked the database after the revalidation had its answers and was told
that the user may read the topic (`LateSubscription`), is removed all the same if its topic is in
the set and was not readable a moment before: another connection of the user was subscribed to
it, or this one was, and unsubscribed. So a late subscription stays exactly if nobody of the user
was in the topic at first, or it was readable already when the revalidation asked
(`UserRevalidation.late_stays_iff`).
-/

namespace Hibari

open Option Threads Bool

/-- The workspace that a topic is in. -/
def Topic.workspaceId (home : Ulid → Ulid) : Topic → Ulid
  | .room id => home id
  | .workspace id => id

/-- The call at `i` does not step. -/
def HubAction.Aside (i : ℕ) : HubAction → Prop
  | .advance j _ => j ≠ i
  | .release j _ => j ≠ i
  | _ => True

instance (i : ℕ) (a : HubAction) : Decidable (a.Aside i) :=
  match a with
  | .advance j _ | .release j _ => inferInstanceAs (Decidable (j ≠ i))
  | .call _ | .shutdown | .grant _ _ | .withdraw _ _ => isTrue trivial

/-- **A revalidation of a user**, in a run: the call at `i` takes its set, reads the rooms that
are allowed and the workspaces, and removes what is not; anything else may happen in between. -/
structure UserRevalidation (home : Ulid → Ulid) (i : ℕ) (u : Ulid) (scope : Option Ulid) where
  /-- When it takes its set. -/
  taken : HubState
  looking : HubState
  /-- When the rooms are read. -/
  roomsRead : HubState
  lookingOn : HubState
  /-- When the workspaces are read. -/
  workspacesRead : HubState
  /-- When it has its answers. -/
  answered : HubState
  /-- When it removes. -/
  removing : HubState
  removed : HubState
  next : HubTask
  reachable : (hubSystem home).Reachable taken
  starts : taken.tasks[i]? = some (.revalidate u scope next)
  looks : taken.world.hub.scopeRooms u scope ≠ ∅ ∨ taken.world.hub.scopeWorkspaces u scope ≠ ∅
  takes : taken.step home (.advance i true) = some looking
  untilRooms : (hubSystem home).Steps (fun _ a => a.Aside i) looking roomsRead
  readsRooms : roomsRead.step home (.advance i true) = some lookingOn
  untilWorkspaces : (hubSystem home).Steps (fun _ a => a.Aside i) lookingOn workspacesRead
  readsWorkspaces : workspacesRead.step home (.advance i true) = some answered
  untilRemoves : (hubSystem home).Steps (fun _ a => a.Aside i) answered removing
  removes : removing.step home (.advance i true) = some removed

/-- **A subscription of its own time**: after `s` a call asks the database and is told that the
topic may be read, enters the subscription and returns; and it is there in `s'`, without having
been gone. -/
structure LateSubscription (home : Ulid → Ulid) (s s' : HubState) (c : ClientId) (t : Topic) :
    Prop where
  entered : ∃ (j epoch : ℕ) (workspaceId : Ulid) (reads hasRead enters entered : HubState),
    (hubSystem home).Steps (fun _ _ => True) s reads ∧
    reads.tasks[j]? = some (.authorize c t epoch) ∧
    reads.step home (.advance j true) = some hasRead ∧
    hasRead.tasks[j]? = some (.acquire c t epoch workspaceId) ∧
    (hubSystem home).Steps (fun _ _ => True) hasRead enters ∧
    enters.tasks[j]? = some (.enter c t epoch workspaceId) ∧
    enters.step home (.advance j true) = some entered ∧
    entered.tasks[j]? = some .done ∧
    (hubSystem home).Steps (fun s _ => c ∈ s.world.hub.subscribers t) entered s'
  there : c ∈ s'.world.hub.subscribers t

variable {home : Ulid → Ulid} {i : ℕ} {u : Ulid} {scope : Option Ulid} {s s' : HubState}
  {c : ClientId} {t : Topic}

/-! ## The call -/

/-- The call stays where it is while others step. -/
theorem tasks_aside {task : HubTask} (h : (hubSystem home).Steps (fun _ a => a.Aside i) s s')
    (htask : s.tasks[i]? = some task) : s'.tasks[i]? = some task := by
  refine h.preserves (I := fun s => s.tasks[i]? = some task)
    (fun s a s' htask haside hs => ?_) htask
  rcases HubState.step_cases hs with ⟨call, rfl, -, rfl⟩ | ⟨j, ok, v, v', w, rfl, hv, -, rfl⟩ |
    ⟨j, ch, channels, next, rfl, hv, -, rfl⟩ | ⟨rfl, rfl⟩ | ⟨v, t, rfl, rfl⟩ | ⟨v, t, rfl, rfl⟩
  · exact getElem?_append_one htask _
  · have hj : j ≠ i := haside
    exact (getElem?_set hv v' i).trans ((if_neg hj).trans htask)
  · have hj : j ≠ i := haside
    exact (getElem?_set hv _ i).trans ((if_neg hj).trans htask)
  · exact htask
  · exact htask
  · exact htask

/-- What a step of the call makes of the instance. -/
theorem advance_eq {ok : Bool} {task task' : HubTask} {w : World}
    (hs : s.step home (.advance i ok) = some s') (htask : s.tasks[i]? = some task)
    (hstep : taskStep home ok s.world task = some (w, task')) :
    s'.world = w ∧ s'.tasks[i]? = some task' := by
  obtain ⟨⟨w₁, tasks⟩, hat, rfl⟩ := map_eq_some_iff.mp hs
  obtain ⟨v, v', hv, hmove, rfl⟩ := stepAt_eq_some hat
  obtain rfl : task = v := some.inj (htask.symm.trans hv)
  cases hstep.symm.trans hmove
  exact ⟨rfl, (getElem?_set hv _ i).trans (if_pos rfl)⟩

/-- **What is looked up**: the topics in scope of the user's connections. -/
theorem Hub.looked_iff {h : Hub} (hc : h.Consistent home) :
    HubTask.Looked (h.scopeRooms u scope) (h.scopeWorkspaces u scope) t ↔
      (∃ d ∈ h.subscribers t, h.userOf d = u) ∧ Hub.inScope scope (t.workspaceId home) = true := by
  cases t with
  | room r =>
    show r ∈ h.scopeRooms u scope ↔ _
    unfold Hub.scopeRooms
    simp only [Finset.mem_biUnion, Finset.mem_image, Finset.mem_filter]
    constructor
    · rintro ⟨d, hd, ⟨r', w⟩, ⟨hin, hscope⟩, rfl⟩
      obtain ⟨hreg, huser⟩ := (hc.byUser u d).mp hd
      obtain rfl := hc.homes d r' w hin
      exact ⟨⟨d, (hc.subscribers _ d).mpr
        ⟨hreg, Client.subscribed_room_iff.mpr ⟨_, hin⟩⟩, huser⟩, hscope⟩
    · rintro ⟨⟨d, hd, huser⟩, hscope⟩
      obtain ⟨hreg, hsub⟩ := (hc.subscribers _ d).mp hd
      obtain ⟨w, hin⟩ := Client.subscribed_room_iff.mp hsub
      obtain rfl := hc.homes d r w hin
      exact ⟨d, (hc.byUser u d).mpr ⟨hreg, huser⟩, (r, home r), ⟨hin, hscope⟩, rfl⟩
  | workspace w =>
    show w ∈ h.scopeWorkspaces u scope ↔ _
    unfold Hub.scopeWorkspaces
    simp only [Finset.mem_biUnion, Finset.mem_filter]
    constructor
    · rintro ⟨d, hd, hin, hscope⟩
      obtain ⟨hreg, huser⟩ := (hc.byUser u d).mp hd
      exact ⟨⟨d, (hc.subscribers _ d).mpr
        ⟨hreg, Client.subscribed_workspace_iff.mpr hin⟩, huser⟩, hscope⟩
    · rintro ⟨⟨d, hd, huser⟩, hscope⟩
      obtain ⟨hreg, hsub⟩ := (hc.subscribers _ d).mp hd
      exact ⟨d, (hc.byUser u d).mpr ⟨hreg, huser⟩, Client.subscribed_workspace_iff.mp hsub, hscope⟩

namespace UserRevalidation

variable (R : UserRevalidation home i u scope)

/-- Somebody of the user was in the topic when the set was taken, and it is one of those that the
revalidation is about. -/
def Held (t : Topic) : Prop :=
  (∃ d ∈ R.taken.world.hub.subscribers t, R.taken.world.hub.userOf d = u) ∧
    Hub.inScope scope (t.workspaceId home) = true

/-- The topic was readable when the revalidation asked. -/
def Readable : Topic → Prop
  | .room id => R.roomsRead.world.may u (.room id) = true
  | .workspace id => R.workspacesRead.world.may u (.workspace id) = true

/-- **What the call carries** when it removes: the set that was taken, and the answers. -/
theorem task_removing : R.removing.tasks[i]? = some (.removeDisallowed u
    (R.taken.world.hub.scopeRooms u scope) (R.taken.world.hub.scopeWorkspaces u scope)
    ((R.taken.world.hub.scopeRooms u scope).filter fun id => R.roomsRead.world.may u (.room id))
    ((R.taken.world.hub.scopeWorkspaces u scope).filter
      fun id => R.workspacesRead.world.may u (.workspace id)) R.next) := by
  have hsome : ¬R.taken.world.hub.byUser u = none := by
    intro hnone
    have hat : R.taken.world.hub.byUser.at_ u = ∅ := Index.at_eq_of_none hnone
    rcases R.looks with hrooms | hworkspaces
    · exact hrooms (by rw [Hub.scopeRooms, hat, Finset.biUnion_empty])
    · exact hworkspaces (by rw [Hub.scopeWorkspaces, hat, Finset.biUnion_empty])
  have hlooks : ¬(R.taken.world.hub.scopeRooms u scope = ∅ ∧
      R.taken.world.hub.scopeWorkspaces u scope = ∅) := fun h =>
    R.looks.elim (fun hrooms => hrooms h.1) fun hworkspaces => hworkspaces h.2
  have hlooking := (advance_eq R.takes R.starts ((if_neg hsome).trans (if_neg hlooks))).2
  have hlookingOn := (advance_eq R.readsRooms (tasks_aside R.untilRooms hlooking)
    rfl).2
  have hanswered := (advance_eq R.readsWorkspaces (tasks_aside R.untilWorkspaces hlookingOn)
    rfl).2
  exact tasks_aside R.untilRemoves hanswered

theorem reachable_removing : (hubSystem home).Reachable R.removing := by
  have hall : ∀ {s s' : HubState}, (hubSystem home).Steps (fun _ a => a.Aside i) s s' →
      (hubSystem home).Steps (fun _ _ => True) s s' := fun h => h.mono fun _ _ _ => trivial
  have hlooking : (hubSystem home).Reachable R.looking :=
    R.reachable.tail (a := .advance i true) trivial R.takes
  have hlookingOn : (hubSystem home).Reachable R.lookingOn :=
    (hlooking.steps (hall R.untilRooms)).tail (a := .advance i true) trivial R.readsRooms
  have hanswered : (hubSystem home).Reachable R.answered :=
    (hlookingOn.steps (hall R.untilWorkspaces)).tail (a := .advance i true) trivial
      R.readsWorkspaces
  exact hanswered.steps (hall R.untilRemoves)

/-- A topic is taken for not allowed if it is in the set and was not readable. -/
theorem disallowed_iff : disallowed (R.taken.world.hub.scopeRooms u scope)
    (R.taken.world.hub.scopeWorkspaces u scope)
    ((R.taken.world.hub.scopeRooms u scope).filter fun id => R.roomsRead.world.may u (.room id))
    ((R.taken.world.hub.scopeWorkspaces u scope).filter
      fun id => R.workspacesRead.world.may u (.workspace id)) t = true ↔
        R.Held t ∧ ¬R.Readable t := by
  have hlooked : HubTask.Looked (R.taken.world.hub.scopeRooms u scope)
      (R.taken.world.hub.scopeWorkspaces u scope) t ↔ R.Held t :=
    Hub.looked_iff (sound_of_reachable R.reachable).consistent
  refine Iff.trans ?_ (and_congr_left' hlooked)
  cases t with
  | room r =>
    show (decide (r ∈ _) && decide (r ∉ _)) = true ↔
      r ∈ _ ∧ ¬R.roomsRead.world.may u (.room r) = true
    rw [and_eq_true, decide_eq_true_eq, decide_eq_true_eq, Finset.mem_filter]
    exact and_congr_right fun hr => not_congr (and_iff_right hr)
  | workspace w =>
    show (decide (w ∈ _) && decide (w ∉ _)) = true ↔
      w ∈ _ ∧ ¬R.workspacesRead.world.may u (.workspace w) = true
    rw [and_eq_true, decide_eq_true_eq, decide_eq_true_eq, Finset.mem_filter]
    exact and_congr_right fun hw => not_congr (and_iff_right hw)

/-- **What a revalidation removes**, of the subscriptions of the user that are there when it
removes. -/
theorem stays_iff (hthere : c ∈ R.removing.world.hub.subscribers t)
    (huser : R.removing.world.hub.userOf c = u) :
    c ∈ R.removed.world.hub.subscribers t ↔ ¬R.Held t ∨ R.Readable t := by
  have hreach := R.reachable_removing
  have hc := (sound_of_reachable hreach).consistent
  have hc' := (sound_of_reachable (hreach.tail (a := .advance i true) trivial R.removes)).consistent
  obtain ⟨hreg, hsub⟩ := (hc.subscribers t c).mp hthere
  have hmem : c ∈ R.removing.world.hub.byUser.at_ u := (hc.byUser u c).mpr ⟨hreg, huser⟩
  have hworld := (advance_eq R.removes R.task_removing rfl).1
  rw [hc'.subscribers t c, hworld]
  show ((Hub.drop _ _ _).records c).registered = true ∧
    ((Hub.drop _ _ _).records c).subscribed t = true ↔ _
  rw [Hub.registered_drop, Hub.subscribed_drop, R.disallowed_iff]
  constructor
  · rintro ⟨-, -, hnot⟩
    by_contra hcon
    exact hnot ⟨hmem, not_not.mp fun h => hcon (.inl h), fun h => hcon (.inr h)⟩
  · intro h
    refine ⟨hreg, hsub, fun hgone => ?_⟩
    exact h.elim (fun hnot => hnot hgone.2.1) hgone.2.2

/-- **A late subscription stays** exactly if nobody of the user was in the topic when the set was
taken (or it is not what the revalidation is about), or the topic was readable already when the
revalidation asked. -/
theorem late_stays_iff (hlate : LateSubscription home R.answered R.removing c t)
    (huser : R.removing.world.hub.userOf c = u) :
    c ∈ R.removed.world.hub.subscribers t ↔ ¬R.Held t ∨ R.Readable t :=
  R.stays_iff hlate.there huser

end UserRevalidation

/-! ## Another connection of the user -/

/-- A user with two connections, one of them in a room that the user may not read any more, when
a revalidation of the user begins. -/
def withdrawnRoom : List HubAction :=
  registers 0 1 ++ subscribes 1 0 (.room 5) ++ registers 2 1
    ++ [.withdraw 1 (.room 5), .call (.revalidate [1])]

/-- The revalidation takes its set and has its answers. The user may read the room again, and the
other connection subscribes to a room; then the revalidation removes. What is to be the case of
the state in which the set was taken and of the last one is `q`. -/
def lateRun (r : Ulid) (q : HubState → HubState → Bool) : Bool :=
  ((hubSystem id).run idleHub withdrawnRoom).any fun taken =>
    decide (taken.tasks[3]? = some (.revalidate 1 none .done) ∧
      taken.world.hub.scopeRooms 1 none ≠ ∅) &&
    (taken.step id (.advance 3 true)).any fun looking =>
    (looking.step id (.advance 3 true)).any fun lookingOn =>
    (lookingOn.step id (.advance 3 true)).any fun answered =>
    ((hubSystem id).runBy (fun _ a => a.Aside 3) answered
      [.grant 1 (.room 5), .call (.subscribe 1 (.room r)), .advance 4 true]).any fun reads =>
    decide (reads.tasks[4]? = some (.authorize 1 (.room r) 1)) &&
    (reads.step id (.advance 4 true)).any fun hasRead =>
    decide (hasRead.tasks[4]? = some (.acquire 1 (.room r) 1 r)) &&
    (hasRead.step id (.advance 4 true)).any fun enters =>
    decide (enters.tasks[4]? = some (.enter 1 (.room r) 1 r)) &&
    (enters.step id (.advance 4 true)).any fun removing =>
    decide (removing.tasks[4]? = some .done ∧ 1 ∈ removing.world.hub.subscribers (.room r) ∧
      removing.world.hub.userOf 1 = 1) &&
    (removing.step id (.advance 3 true)).any fun removed => q taken removed

/-- Such a run has a revalidation and a late subscription of the other connection. -/
theorem exists_late {r : Ulid} {q : HubState → HubState → Bool} (h : lateRun r q = true) :
    ∃ R : UserRevalidation id 3 1 none, LateSubscription id R.answered R.removing 1 (.room r) ∧
      R.removing.world.hub.userOf 1 = 1 ∧ q R.taken R.removed = true := by
  obtain ⟨taken, htaken, h⟩ := (any_eq_true _ _).mp h
  obtain ⟨hstarts, h⟩ := and_eq_true_iff.mp h
  obtain ⟨hstarts, hlooks⟩ := of_decide_eq_true hstarts
  obtain ⟨looking, htakes, h⟩ := (any_eq_true _ _).mp h
  obtain ⟨lookingOn, hrooms, h⟩ := (any_eq_true _ _).mp h
  obtain ⟨answered, hworkspaces, h⟩ := (any_eq_true _ _).mp h
  obtain ⟨reads, hreads, h⟩ := (any_eq_true _ _).mp h
  obtain ⟨hauthorize, h⟩ := and_eq_true_iff.mp h
  obtain ⟨hasRead, hhasRead, h⟩ := (any_eq_true _ _).mp h
  obtain ⟨hacquire, h⟩ := and_eq_true_iff.mp h
  obtain ⟨enters, henters, h⟩ := (any_eq_true _ _).mp h
  obtain ⟨henter, h⟩ := and_eq_true_iff.mp h
  obtain ⟨removing, hremoving, h⟩ := (any_eq_true _ _).mp h
  obtain ⟨hdone, h⟩ := and_eq_true_iff.mp h
  obtain ⟨hdone, hthere, huser⟩ := of_decide_eq_true hdone
  obtain ⟨removed, hremoves, hq⟩ := (any_eq_true _ _).mp h
  have hreach := TransitionSystem.reachableBy_of_run (P := fun _ _ => True) (init_idleHub id)
    (fun _ _ _ => trivial) htaken
  have haside := TransitionSystem.steps_of_runBy hreads
  -- the steps of the other call
  have hby : ∀ {s s' : HubState}, s.step id (.advance 4 true) = some s' →
      (hubSystem id).Steps (fun _ a => a.Aside 3) s s' := fun hs =>
    TransitionSystem.Steps.single (a := .advance 4 true) (show 4 ≠ 3 by decide) hs
  have hall := haside.mono fun _ _ _ => trivial
  let R : UserRevalidation id 3 1 none := {
    taken := taken
    looking := looking
    roomsRead := looking
    lookingOn := lookingOn
    workspacesRead := lookingOn
    answered := answered
    removing := removing
    removed := removed
    next := .done
    reachable := hreach
    starts := hstarts
    looks := .inl hlooks
    takes := htakes
    untilRooms := .refl
    readsRooms := hrooms
    untilWorkspaces := .refl
    readsWorkspaces := hworkspaces
    untilRemoves := ((haside.trans (hby hhasRead)).trans (hby henters)).trans (hby hremoving)
    removes := hremoves }
  exact ⟨R, ⟨⟨4, 1, r, reads, hasRead, enters, removing, hall, of_decide_eq_true hauthorize,
    hhasRead, of_decide_eq_true hacquire, (hby henters).mono fun _ _ _ => trivial, of_decide_eq_true henter,
    hremoving, hdone, .refl⟩, hthere⟩, huser, hq⟩

/-- A subscription to a room that nobody of the user was in stays. -/
theorem late_stays_in_other_room : ∃ R : UserRevalidation id 3 1 none,
    1 ∈ R.removed.world.hub.subscribers (.room 6) := by
  obtain ⟨R, hlate, huser, hheld⟩ := exists_late (r := 6)
    (q := fun taken _ => decide (taken.world.hub.subscribers (.room 6) = ∅)) (by decide +kernel)
  refine ⟨R, (R.late_stays_iff hlate huser).mpr (.inl fun h => ?_)⟩
  obtain ⟨⟨d, hd, -⟩, -⟩ := h
  rw [of_decide_eq_true hheld] at hd
  exact absurd hd (Finset.notMem_empty d)

/-- **A late subscription is removed.** One connection of the user was in the room when the
revalidation took its set. The user may read the room again, and the other connection subscribes
to it, asking the database after the revalidation did: it is removed. -/
theorem late_removed_with_other : ∃ R : UserRevalidation id 3 1 none,
    LateSubscription id R.answered R.removing 1 (.room 5) ∧
      R.removing.world.hub.userOf 1 = 1 ∧ R.removed.world.may 1 (.room 5) = true ∧
      1 ∉ R.removed.world.hub.subscribers (.room 5) := by
  obtain ⟨R, hlate, huser, hgone⟩ := exists_late (r := 5)
    (q := fun _ removed => decide (removed.world.may 1 (.room 5) = true ∧
      1 ∉ removed.world.hub.subscribers (.room 5))) (by decide +kernel)
  exact ⟨R, hlate, huser, of_decide_eq_true hgone⟩

end Hibari
