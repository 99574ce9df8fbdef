import Hibari.WorkspaceRows

/-!
# The roles of a workspace stay sound

Whatever calls run at once: a workspace has one owner, whoever is in one of its rooms is a member
of it, and nobody's role changes except by somebody who was above it when the change was
committed – or by an owner who hands the workspace over (`RoleChange`). Demoting each other,
removing a member who is being made the owner, and joining a room while being removed all come
down to the same: a call decides by the rows that it has locked, and what it read of them is what
is there when it commits.

The rows of members are locked in the order of the users, and before anything else. A call that
adds a member holds nothing while it waits for the key of that member. So whoever waits for
something of `workspace_members` is in no cycle of calls that wait for each other, although log
lines of rooms are written in any order (`notMem_cycle`).
-/

namespace Hibari

open List WorkspaceTables Bool

namespace WorkspaceService

/-- **How a member's role may change**, by a call that commits: it is given a new role by a member
above it, and not above that member; it is removed by one, or leaves and is not the owner; or the
owner hands over to somebody and becomes an admin. -/
inductive RoleChange (d : WorkspaceTables) (c : WorkspaceCall) (ws user : Ulid) (newRole : Role) :
    Prop
  | changed {actor : Ulid} : c = .changeMemberRole actor ws user newRole →
      (d.role ws actor).isMember → (d.role ws user).rank < (d.role ws actor).rank →
      newRole.rank ≤ (d.role ws actor).rank → RoleChange d c ws user newRole
  | removed {actor : Ulid} : c = .removeMember actor ws user → actor ≠ user →
      (d.role ws actor).isMember → (d.role ws user).rank < (d.role ws actor).rank →
      newRole = .none → RoleChange d c ws user newRole
  | left : c = .removeMember user ws user → d.role ws user ≠ .owner → newRole = .none →
      RoleChange d c ws user newRole
  | demoted {target : Ulid} : c = .transferOwnership user ws target → d.role ws user = .owner →
      newRole = .admin → RoleChange d c ws user newRole
  | promoted {actor : Ulid} : c = .transferOwnership actor ws user → d.role ws actor = .owner →
      newRole = .owner → RoleChange d c ws user newRole

/-- A call waits for another one. -/
abbrev Waits (s : WorkspaceService) : ℕ → ℕ → Prop :=
  Conflicts.Waits WorkspaceLock.Conflict WorkspaceTask.held WorkspaceTask.asks s.tasks

variable {s s' : WorkspaceService} {a : WorkspaceAction} {t : WorkspaceTask} {g : Grip}

/-! ## Who changes a role -/

/-- **A commit that changes the role of a member.** -/
theorem roleChange_of_perform {d d' : WorkspaceTables} {w : WorkspaceWrite} {ws user : Ulid}
    (hk : d.Keyed) (hg : g.Holds d) (hw : w.Fits d g) (hd : d.perform w = some d')
    (hmember : (d.role ws user).isMember) (hne : d'.role ws user ≠ d.role ws user) :
    RoleChange d g.call ws user (d'.role ws user) := by
  have hsome : (d.members ws user).isSome := by
    cases hm : d.members ws user with
    | some => rfl
    | none =>
      rw [role_of_none hm] at hmember
      cases hmember
  have hstill : d'.members ws user = d.members ws user → False := fun heq => hne (by
    unfold WorkspaceTables.role
    rw [heq])
  cases w with
  | role _ target newRole =>
    cases hd
    obtain ⟨rfl, actor, hcall, hallowed⟩ := hw
    obtain ⟨hmanage, hgrant⟩ := and_eq_true_iff.mp hallowed
    obtain ⟨hboth, hlt⟩ := and_eq_true_iff.mp hmanage
    obtain ⟨hactor, htarget⟩ := and_eq_true_iff.mp hboth
    by_cases heq : ws = g.workspaceId ∧ user = target
    · obtain ⟨rfl, rfl⟩ := heq
      have hnew : (d.updateRole g.workspaceId user newRole).role g.workspaceId user = newRole := by
        rw [role_updateRole _ hsome, if_pos ⟨rfl, rfl⟩]
      rw [hnew]
      refine .changed hcall ?_ ?_ ?_
      · rwa [hg.role_eq hactor]
      · rw [hg.role_eq hactor, hg.role_eq htarget]
        exact of_decide_eq_true hlt
      · rw [hg.role_eq hactor]
        exact of_decide_eq_true (and_eq_true_iff.mp hgrant).2
    · exact absurd (by rw [members_updateRole, if_neg heq]) hstill
  | remove _ target rooms =>
    cases hd
    obtain ⟨rfl, ⟨actor, hcall, hallowed⟩, -⟩ := hw
    by_cases heq : ws = g.workspaceId ∧ user = target
    · obtain ⟨rfl, rfl⟩ := heq
      have hnew : (d.deleteMember g.workspaceId user rooms).role g.workspaceId user = .none := by
        refine role_of_none ?_
        rw [members_deleteMember, if_pos ⟨rfl, rfl⟩]
      rcases hallowed with ⟨rfl, hleave⟩ | ⟨hother, hremove⟩
      · obtain ⟨hm, hnotOwner⟩ := and_eq_true_iff.mp hleave
        refine .left hcall ?_ hnew
        rw [hg.role_eq hm]
        exact of_decide_eq_true hnotOwner
      · obtain ⟨hboth, hlt⟩ := and_eq_true_iff.mp hremove
        obtain ⟨hactor, htarget⟩ := and_eq_true_iff.mp hboth
        refine .removed hcall hother ?_ ?_ hnew
        · rwa [hg.role_eq hactor]
        · rw [hg.role_eq hactor, hg.role_eq htarget]
          exact of_decide_eq_true hlt
    · exact absurd (by rw [members_deleteMember, if_neg heq]) hstill
  | transfer _ actor target =>
    cases hd
    obtain ⟨rfl, hdiffer, hcall, hactor, htarget⟩ := hw
    have howns : d.role g.workspaceId actor = .owner := by
      have hm : (g.role actor).isMember := by rw [hactor]; rfl
      exact (hg.role_eq hm).trans hactor
    by_cases hws : ws = g.workspaceId
    · subst hws
      have hfirst : ((d.updateRole g.workspaceId actor .admin).members g.workspaceId target).isSome := by
        rw [members_updateRole, if_neg fun hboth => hdiffer hboth.2.symm]
        obtain ⟨m, hm, -⟩ := Grip.mem_got htarget
        rw [hg _ hm]
        rfl
      by_cases hpromoted : user = target
      · subst hpromoted
        refine .promoted hcall howns ?_
        rw [role_updateRole _ hfirst, if_pos ⟨rfl, rfl⟩]
      · by_cases hdemoted : user = actor
        · subst hdemoted
          refine .demoted hcall howns ?_
          rw [role_updateRole _ hfirst, if_neg fun hboth => hpromoted hboth.2,
            role_updateRole _ hsome, if_pos ⟨rfl, rfl⟩]
        · refine absurd ?_ hstill
          rw [members_updateRole, if_neg fun hboth => hpromoted hboth.2,
            members_updateRole, if_neg fun hboth => hdemoted hboth.2]
    · refine absurd ?_ hstill
      rw [members_updateRole, if_neg fun hboth => hws hboth.1,
        members_updateRole, if_neg fun hboth => hws hboth.1]
  | workspace =>
    simp only [WorkspaceTables.perform] at hd
    split at hd
    · cases hd
    · next hnew =>
      cases hd
      refine absurd ?_ hstill
      rw [members_addMember, if_neg]
      obtain ⟨m, hm⟩ := Option.isSome_iff_exists.mp hsome
      exact fun hboth => hnew (hboth.1 ▸ hk.policies ws user m hm)
  | accept _ member =>
    cases hd
    obtain ⟨rfl, hnone, -⟩ := hw
    refine absurd ?_ hstill
    show (d.addMember g.workspaceId member .member).members ws user = _
    rw [members_addMember, if_neg]
    rintro ⟨rfl, rfl⟩
    rw [hnone] at hsome
    cases hsome
  | invite =>
    simp only [WorkspaceTables.perform] at hd
    split at hd
    · cases hd
    · cases hd
      exact absurd rfl hstill
  | join _ new =>
    cases new with
    | none =>
      cases hd
      exact absurd rfl hstill
    | some =>
      simp only [WorkspaceTables.perform] at hd
      split at hd
      · cases hd
      · cases hd
        exact absurd rfl hstill
  | _ =>
    cases hd
    exact absurd rfl hstill

/-- **A step that changes the role of a member** is the commit of a call that may. -/
theorem roleChange_of_act {ws user : Ulid} (hs : Sound s) (hact : s.act a = some s')
    (hmember : (s.tables.role ws user).isMember)
    (hne : s'.tables.role ws user ≠ s.tables.role ws user) :
    ∃ i g w logged, a = .step i ∧ s.tasks[i]? = some (.commit g w logged) ∧
      RoleChange s.tables g.call ws user (s'.tables.role ws user) := by
  cases step_of_act hact with
  | @commit i g w logged d hi hd =>
    obtain ⟨hg, hw⟩ := hs.fits _ (mem_of_getElem? hi)
    have hrole : (s.commits i w logged d).tables.role ws user = d.role ws user := rfl
    rw [hrole] at hne ⊢
    exact ⟨i, g, w, logged, rfl, hi, roleChange_of_perform hs.keyed hg hw hd hmember hne⟩
  | _ => exact absurd rfl hne

/-! ## Who waits for whom -/

/-- Rows of members are locked in the order of the users, and before a member is added none is. -/
def Ordered : WorkspaceTask → Prop
  | .locking g _ todo => (g.got.map Prod.fst ++ todo.map Prod.fst).Pairwise (· < ·)
  | .adding g _ _ _ => g.got = []
  | _ => True

theorem pairwise_lockOrder (users : List Ulid) : (lockOrder users).Pairwise (· < ·) := by
  unfold lockOrder
  have hsorted : ((users.insertionSort (· ≤ ·)).dedup).Pairwise (· ≤ ·) :=
    (users.pairwise_insertionSort (· ≤ ·)).sublist (dedup_sublist _)
  exact (hsorted.and (nodup_dedup _)).imp fun h => lt_of_le_of_ne h.1 h.2

theorem ordered_turn (h : Ordered t) : Ordered (s.turn t) := by
  cases t with
  | getInvite =>
    simp only [turn]
    split
    · split
      · exact trivial
      · exact rfl
    · exact trivial
  | members c ws =>
    show (_ : List Ulid).Pairwise (· < ·)
    rw [map_nil, nil_append, map_filterMap]
    refine (pairwise_lockOrder c.users).sublist ?_
    have hids : (lockOrder c.users).filterMap (fun user => Option.map Prod.fst
        ((s.tables.members ws user).map fun m => (user, m.row))) =
        (lockOrder c.users).filter fun user => (s.tables.members ws user).isSome := by
      rw [← filterMap_eq_filter]
      refine filterMap_congr fun user _ => ?_
      cases hm : s.tables.members ws user <;> simp [Option.guard, hm]
    rw [hids]
    exact filter_sublist
  | locking g room todo =>
    cases todo with
    | nil =>
      show Ordered (s.decides g room)
      unfold decides
      split
      all_goals
        repeat' split
        all_goals exact trivial
    | cons p todo =>
      obtain ⟨user, row⟩ := p
      change (g.got.map Prod.fst ++ user :: todo.map Prod.fst).Pairwise (· < ·) at h
      show (_ : List Ulid).Pairwise (· < ·)
      rw [map_append, append_assoc]
      refine h.sublist (List.Sublist.append_left ?_ _)
      cases (s.tables.members g.workspaceId user).filter fun m => decide (m.row = row) with
      | none => exact sublist_cons_self _ _
      | some => exact List.Sublist.refl _
  | consuming | insertRoomMember =>
    simp only [turn]
    split
    · split <;> exact trivial
    · exact trivial
  | addDM _ _ _ todo =>
    cases todo with
    | nil => exact trivial
    | cons =>
      simp only [turn]
      split <;> exact trivial
  | logging _ _ todo =>
    cases todo with
    | nil =>
      simp only [turn]
      split
      · split <;> exact trivial
      · exact trivial
    | cons => exact trivial
  | removing g target rooms | promoting g actor target | revoking g invite now
  | joining | commit | done => exact trivial
  | _ =>
    simp only [turn]
    split <;> exact trivial

theorem ordered_of_reachable (hs : system.Reachable s) : ∀ t ∈ s.tasks, Ordered t := by
  refine hs.invariant (I := fun s => ∀ t ∈ s.tasks, Ordered t) (fun s hs => ?_)
    fun s a s' hs _ hstep => ?_
  · obtain rfl := hs
    exact fun t ht => nomatch ht
  · have hset : ∀ {i t'}, Ordered t' → ∀ u ∈ s.tasks.set i t', Ordered u := fun ht' u hu =>
      (mem_or_eq_of_mem_set hu).elim (hs u) fun heq => heq ▸ ht'
    cases step_of_act hstep with
    | turn hi => exact hset (ordered_turn (hs _ (mem_of_getElem? hi)))
    | commit | fail => exact hset trivial
    | start =>
      intro u hu
      rcases mem_append.mp hu with hu | hu
      · exact hs u hu
      · rw [mem_singleton.mp hu]
        unfold WorkspaceCall.begins
        split
        · exact trivial
        · split <;> exact trivial
    | _ => exact hs

/-- The user whose row a lock is about. -/
def lockedUser : WorkspaceLock → Ulid
  | .member _ user _ _ | .memberKey _ user => user
  | _ => 0

/-- **Who waits for a row of a member is in no cycle.** -/
theorem notMem_cycle {i : ℕ} {l : WorkspaceLock} (hs : ∀ t ∈ s.tasks, Ordered t)
    (hi : s.tasks[i]? = some t) (hl : t.asks = some l) (hof : l.ofMembers) :
    ¬ Relation.TransGen (Waits s) i i := by
  refine Conflicts.notMem_cycle (fun l => l.ofMembers = true) lockedUser
    (fun u hu l hl hof l' hl' q hq => ?_) hi hl hof
  have hordered := hs u hu
  cases u with
  | locking g _ todo =>
    cases todo with
    | nil => exact absurd hl (by simp [WorkspaceTask.asks])
    | cons p todo =>
      obtain ⟨user, row⟩ := p
      cases hl
      obtain ⟨held, hheld, rfl⟩ := mem_map.mp hl'
      cases q with
      | member =>
        obtain ⟨⟨-, rfl, -⟩, -⟩ := hq
        refine ⟨rfl, ?_⟩
        change (g.got.map Prod.fst ++ user :: todo.map Prod.fst).Pairwise (· < ·) at hordered
        exact (pairwise_append.mp hordered).2.2 _ (mem_map.mpr ⟨held, hheld, rfl⟩) user (.head _)
      | _ => cases show _ = WorkspaceLock.member _ _ _ _ from hq
  | adding g =>
    have hnil : g.got = [] := hordered
    change l' ∈ g.held at hl'
    unfold Grip.held at hl'
    rw [hnil] at hl'
    exact nomatch hl'
  | addDM _ _ _ todo =>
    cases todo with
    | nil => exact absurd hl (by simp [WorkspaceTask.asks])
    | cons =>
      cases hl
      exact absurd hof (by simp [WorkspaceLock.ofMembers])
  | logging _ _ todo =>
    cases todo with
    | nil => exact absurd hl (by simp [WorkspaceTask.asks])
    | cons =>
      cases hl
      exact absurd hof (by simp [WorkspaceLock.ofMembers])
  | insertRoom | insertDM =>
    cases hl
    unfold WorkspaceRoom.key at hof
    split at hof <;> exact absurd hof (by simp [WorkspaceLock.ofMembers])
  | revoking | consuming | insertRoomMember =>
    cases hl
    exact absurd hof (by simp [WorkspaceLock.ofMembers])
  | _ => exact absurd hl (by simp [WorkspaceTask.asks])

/-! ## The roles stay sound -/

/-- **The roles of a workspace stay sound.** Whatever calls run at once, every workspace has one
owner, who is in a room is a member of its workspace, a role only changes by somebody who may
change it as the roles are at the commit, and nobody who waits for a row of `workspace_members` is
in a deadlock. -/
theorem roles_stay_sound (hs : system.Reachable s) :
    (∀ ws, (s.tables.policies ws).isSome → ∃! user, s.tables.role ws user = .owner) ∧
    (∀ room ∈ s.tables.rooms, ∀ user, (s.tables.roomMembers room.id user).isSome →
      (s.tables.role room.workspaceId user).isMember) ∧
    (∀ a s' ws user, s.act a = some s' → (s.tables.role ws user).isMember →
      s'.tables.role ws user ≠ s.tables.role ws user →
      ∃ i g w logged, a = .step i ∧ s.tasks[i]? = some (.commit g w logged) ∧
        RoleChange s.tables g.call ws user (s'.tables.role ws user)) ∧
    (∀ (i : ℕ) t l, s.tasks[i]? = some t → t.asks = some l → l.ofMembers →
      ¬ Relation.TransGen (Waits s) i i) := by
  have hsound := sound_of_reachable hs
  refine ⟨hsound.keyed.owner, fun room hroom user hsome => ?_,
    fun a s' ws user hact hmember hne => roleChange_of_act hsound hact hmember hne,
    fun i t l hi hl hof => notMem_cycle (ordered_of_reachable hs) hi hl hof⟩
  obtain ⟨ws, hin, hmember⟩ := hsound.keyed.inRooms room.id user hsome
  obtain rfl := hsound.keyed.inWorkspace_unique ⟨room, hroom, rfl, rfl⟩ hin
  obtain ⟨m, hm⟩ := Option.isSome_iff_exists.mp hmember
  rw [role_of_members hm]
  exact hsound.keyed.isMember _ _ m hm

/-- The owner hands over to a member while removing the same member, and is an admin by the time
the removal has its rows. -/
theorem roles_stay_sound_handover : ∃ s, system.Reachable s ∧ s.tables.role 10 1 = .admin ∧
      (s.tables.roomMembers 20 2).isSome ∧ (s.tables.role 10 2).isMember ∧
      ∃! user, s.tables.role 10 user = .owner := by
  have hrun : (system.run empty (populated ++
      [.start (.removeMember 1 10 2), .start (.transferOwnership 1 10 2), .step 5, .step 4, .step 5,
        .step 5, .step 5, .step 5, .step 5, .step 4, .step 4, .step 4])).any (fun s =>
      decide (s.tables.role 10 1 = .admin ∧ (s.tables.roomMembers 20 2).isSome ∧
        (s.tables.policies 10).isSome) &&
      s.tables.rooms.any fun r => decide (r.id = 20 ∧ r.workspaceId = 10)) = true := by
    decide +kernel
  obtain ⟨s, hreach, htest⟩ := TransitionSystem.exists_of_run hrun rfl
  obtain ⟨hstate, hroom⟩ := Bool.and_eq_true_iff.mp htest
  obtain ⟨hadmin, hin, hpolicy⟩ := of_decide_eq_true hstate
  obtain ⟨r, hr, hrtest⟩ := any_eq_true.mp hroom
  obtain ⟨hid, hws⟩ := of_decide_eq_true hrtest
  obtain ⟨howner, hrooms, -, -⟩ := roles_stay_sound hreach
  have hmember := hrooms r hr 2 (by rwa [hid])
  rw [hws] at hmember
  exact ⟨s, hreach, hadmin, hin, hmember, howner 10 hpolicy⟩

end WorkspaceService

end Hibari
