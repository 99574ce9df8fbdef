import Hibari.WorkspaceRoles

/-!
# Invites admit exactly what they count

An invite is accepted by adding the member, then counting the use, then joining the default rooms,
all in one transaction. What an invite counts is how many committed acceptances turned somebody
into a member through it (`CountsUses`), and an acceptance that does not do that changes nothing
(`admits_or_rests`), whatever calls run at once and wherever they fail.

The use is counted by an `UPDATE` that asks again whether the invite may be used, so no use is
counted after a revocation was committed. It asks by the time that was read when the invite was
found, though: an acceptance that waits – for the row of the member or of the invite – may count
its use after the invite has expired (`consumed_after_expiry`), but it had not expired when the
acceptance began (`invites_admit_what_they_count`).
-/

namespace Hibari

open List WorkspaceTables TransitionSystem Bool

/-- An acceptance that has turned somebody into a member through an invite. -/
def WorkspaceTask.admittedBy (id : Ulid) : WorkspaceTask → Bool
  | .done (.wrote (.accept _ _ id' _)) => decide (id' = id)
  | _ => false

def WorkspaceCall.isAccept : WorkspaceCall → Bool
  | acceptInvite _ _ => true
  | _ => false

/-- The call that goes on, as long as it does. -/
def WorkspaceTask.call? : WorkspaceTask → Option WorkspaceCall
  | getRoom c _ | getInvite c _ | members c _ _ => some c
  | t => t.grip.map Grip.call

def WorkspaceWrite.isAccept : WorkspaceWrite → Bool
  | accept _ _ _ _ => true
  | _ => false

namespace WorkspaceService

variable {s s' : WorkspaceService} {a : WorkspaceAction} {t : WorkspaceTask} {g : Grip} {i : ℕ}
  {id user ws : Ulid} {t' : WorkspaceTask} {d : WorkspaceTables} {now : ℕ}
    {w : WorkspaceWrite}

/-- Only a commit ends with something that was written. -/
theorem turn_ne_wrote (hdone : ∀ result, t ≠ .done result) (w : WorkspaceWrite) :
    s.turn t ≠ .done (.wrote w) := by
  intro h
  cases t with
  | locking g room todo =>
    cases todo with
    | nil =>
      change s.decides g room = _ at h
      unfold decides refuse at h
      split at h
      all_goals
        repeat' split at h
        all_goals cases h
    | cons => exact absurd h (by simp [turn])
  | getInvite | consuming =>
    simp only [turn, refuse] at h
    split at h
    · split at h <;> cases h
    · cases h
  | insertRoomMember =>
    simp only [turn] at h
    split at h
    · split at h <;> cases h
    · cases h
  | getRoom | welcoming | insertRoom =>
    simp only [turn, refuse] at h
    split at h <;> cases h
  | adding | insertDM =>
    simp only [turn] at h
    split at h <;> cases h
  | addDM _ _ _ todo =>
    cases todo with
    | nil => exact absurd h (by simp [turn])
    | cons =>
      simp only [turn] at h
      split at h <;> cases h
  | logging _ _ todo =>
    cases todo with
    | nil =>
      simp only [turn, refuse] at h
      split at h
      · split at h <;> cases h
      · cases h
    | cons => exact absurd h (by simp [turn])
  | done result => exact hdone result rfl
  | _ => exact absurd h (by simp [turn])

theorem not_admittedBy_of_ne (h : ∀ w, t ≠ .done (.wrote w)) : t.admittedBy id = false := by
  unfold WorkspaceTask.admittedBy
  split
  · exact absurd rfl (h _)
  · rfl

/-! ## What an invite counts -/

/-- **What an invite counts** is the acceptances through it that made somebody a member. -/
structure CountsUses (s : WorkspaceService) : Prop where
  useCount : ∀ inv ∈ s.tables.invites, inv.useCount = s.tasks.countP (WorkspaceTask.admittedBy inv.id)
  there : ∀ t ∈ s.tasks, ∀ id, t.admittedBy id → ∃ inv ∈ s.tables.invites, inv.id = id

theorem countP_set (hi : s.tasks[i]? = some t)
    (ht : t.admittedBy id = false) : (s.tasks.set i t').countP (WorkspaceTask.admittedBy id) =
      s.tasks.countP (WorkspaceTask.admittedBy id) + if t'.admittedBy id then 1 else 0 := by
  obtain ⟨hlt, hget⟩ := List.getElem?_eq_some_iff.mp hi
  rw [List.countP_set hlt, hget, ht]
  simp

/-- The invites are written, and none is counted. -/
theorem CountsUses.of_set (hs : CountsUses s)
    (hi : s.tasks[i]? = some t) (ht : ∀ id, t.admittedBy id = false)
    (ht' : ∀ id, t'.admittedBy id = false)
    (hold : ∀ inv ∈ d.invites, (∃ inv' ∈ s.tables.invites, inv'.id = inv.id ∧
      inv'.useCount = inv.useCount) ∨ ((∀ inv' ∈ s.tables.invites, inv'.id ≠ inv.id) ∧ inv.useCount = 0))
    (hstill : ∀ inv ∈ s.tables.invites, ∃ inv' ∈ d.invites, inv'.id = inv.id) :
    CountsUses ({ s with tables := d }.goes i t') where
  useCount := fun inv hinv => by
    have hcount : (s.tasks.set i t').countP (WorkspaceTask.admittedBy inv.id) = _ :=
      countP_set hi (ht inv.id)
    rw [ht' inv.id] at hcount
    refine Eq.trans ?_ hcount.symm
    show inv.useCount = s.tasks.countP _ + 0
    rw [Nat.add_zero]
    rcases hold inv hinv with ⟨inv', hinv', hid, huses⟩ | ⟨hnew, hzero⟩
    · rw [← huses, hs.useCount inv' hinv', hid]
    · rw [hzero, eq_comm, countP_eq_zero]
      intro u hu hadmitted
      obtain ⟨inv', hinv', hid⟩ := hs.there u hu inv.id hadmitted
      exact hnew inv' hinv' hid
  there := fun u hu id hadmitted => by
    rcases mem_or_eq_of_mem_set hu with hu | rfl
    · obtain ⟨inv, hinv, hid⟩ := hs.there u hu id hadmitted
      obtain ⟨inv', hinv', hid'⟩ := hstill inv hinv
      exact ⟨inv', hinv', hid'.trans hid⟩
    · cases (ht' id).symm.trans hadmitted

/-- **A use is counted** by the commit that makes somebody a member. -/
theorem CountsUses.accept {joins : List RoomJoin} {logged : List Ulid} (hs : CountsUses s)
    (hi : s.tasks[i]? = some (.commit g (.accept ws user id joins) logged))
    (hinv : ∃ inv ∈ s.tables.invites, inv.id = id)
    (hd : s.tables.perform (.accept ws user id joins) = some d) :
    CountsUses (s.commits i (.accept ws user id joins) logged d) := by
  cases hd
  have hadmitted : ∀ id', (WorkspaceTask.done (.wrote (.accept ws user id joins))).admittedBy id' =
      decide (id = id') := fun id' => rfl
  refine ⟨fun inv hmem => ?_, fun u hu id' hu' => ?_⟩
  · refine Eq.trans ?_ (countP_set hi rfl).symm
    obtain ⟨inv₀, hinv₀, rfl⟩ := mem_map.mp hmem
    rw [hadmitted]
    by_cases hid : inv₀.id = id
    · rw [if_pos hid]
      show inv₀.useCount + 1 = _
      rw [if_pos (decide_eq_true hid.symm), hs.useCount inv₀ hinv₀]
    · rw [if_neg hid, if_neg fun h => hid (of_decide_eq_true h).symm, hs.useCount inv₀ hinv₀]
      rfl
  · rcases mem_or_eq_of_mem_set hu with hu | rfl
    · obtain ⟨inv, hmem, hid⟩ := hs.there u hu id' hu'
      refine ⟨_, mem_map.mpr ⟨inv, hmem, rfl⟩, ?_⟩
      split <;> exact hid
    · obtain ⟨inv, hmem, hid⟩ := hinv
      refine ⟨_, mem_map.mpr ⟨inv, hmem, rfl⟩, ?_⟩
      rw [hadmitted] at hu'
      have hsame := hid.trans (of_decide_eq_true hu')
      split <;> exact hsame

theorem CountsUses.act (hsound : Sound s) (hs : CountsUses s) (hact : s.act a = some s') :
    CountsUses s' := by
  have hsame : ∀ {i t t'}, s.tasks[i]? = some t → (∀ id, t.admittedBy id = false) →
      (∀ id, t'.admittedBy id = false) → CountsUses (s.goes i t') := fun hi ht ht' =>
    hs.of_set (d := s.tables) hi ht ht' (fun inv hinv => .inl ⟨inv, hinv, rfl, rfl⟩)
      fun inv hinv => ⟨inv, hinv, rfl⟩
  cases step_of_act hact with
  | @commit i g w logged d hi hd =>
    obtain ⟨-, hw⟩ := hsound.fits _ (mem_of_getElem? hi)
    -- a write that leaves the invites leaves what they count
    have hrest : (∀ ws user id joins, w ≠ .accept ws user id joins) →
        d.invites = s.tables.invites → CountsUses (s.commits i w logged d) := fun hnot hinvites => by
      have hdone : ∀ id, (WorkspaceTask.done (.wrote w)).admittedBy id = false := fun id => by
        cases w with
        | accept ws user id joins => exact absurd rfl (hnot ws user id joins)
        | _ => rfl
      refine hs.of_set (d := d.addLogs logged) hi (fun id => rfl) hdone (fun inv hinv => ?_)
        fun inv hinv => ?_
      · change inv ∈ d.invites at hinv
        rw [hinvites] at hinv
        exact .inl ⟨inv, hinv, rfl, rfl⟩
      · refine ⟨inv, ?_, rfl⟩
        show inv ∈ d.invites
        rw [hinvites]
        exact hinv
    cases w with
    | accept =>
      obtain ⟨-, -, ⟨inv, hinv, hid, -⟩, -⟩ := hw
      exact hs.accept hi ⟨inv, hinv, hid⟩ hd
    | revoke id =>
      cases hd
      refine hs.of_set (d := (s.tables.updateInvite id _).addLogs logged) hi (fun id => rfl)
        (fun id => rfl) (fun inv hinv => ?_) fun inv hinv => ?_
      · obtain ⟨inv', hinv', rfl⟩ := mem_map.mp hinv
        refine .inl ⟨inv', hinv', ?_⟩
        split <;> exact ⟨rfl, rfl⟩
      · refine ⟨_, mem_map.mpr ⟨inv, hinv, rfl⟩, ?_⟩
        split <;> rfl
    | invite inv =>
      simp only [WorkspaceTables.perform] at hd
      split at hd
      · cases hd
      · next hnew =>
        cases hd
        have hdone : ∀ id, (WorkspaceTask.done (.wrote (.invite inv))).admittedBy id = false :=
          fun id => rfl
        refine hs.of_set (d := { s.tables with invites := s.tables.invites ++ [inv] }.addLogs logged)
          hi (fun id => rfl) hdone (fun inv' hinv' => ?_)
          fun inv' hinv' => ⟨inv', mem_append_left _ hinv', rfl⟩
        rcases mem_append.mp hinv' with hinv' | hinv'
        · exact .inl ⟨inv', hinv', rfl, rfl⟩
        · rw [mem_singleton.mp hinv']
          refine .inr ⟨fun inv'' hinv'' hid => hnew ?_, hw.2⟩
          exact find?_isSome.mpr ⟨inv'', hinv'', decide_eq_true hid⟩
    | workspace =>
      simp only [WorkspaceTables.perform] at hd
      split at hd
      · cases hd
      · cases hd
        exact hrest (by simp) rfl
    | join _ new =>
      cases new with
      | none =>
        cases hd
        exact hrest (by simp) rfl
      | some =>
        simp only [WorkspaceTables.perform] at hd
        split at hd
        · cases hd
        · cases hd
          exact hrest (by simp) rfl
    | _ =>
      cases hd
      exact hrest (by simp) rfl
  | @turn i t hi hfree hcommit hdone =>
    exact hsame hi (fun id => not_admittedBy_of_ne fun w => hdone _)
      fun id => not_admittedBy_of_ne fun w => turn_ne_wrote hdone w
  | @fail i t hi hdone =>
    refine hsame hi (fun id => not_admittedBy_of_ne fun w => hdone _) fun id => ?_
    exact not_admittedBy_of_ne fun w => by simp [refuse]
  | start c =>
    have hbegins : ∀ id, c.begins.admittedBy id = false := fun id => by
      unfold WorkspaceCall.begins
      split
      · rfl
      · split <;> rfl
    refine ⟨fun inv hinv => ?_, fun u hu id hadmitted => ?_⟩
    · rw [hs.useCount inv hinv, countP_append, countP_singleton, hbegins]
      rfl
    · rcases mem_append.mp hu with hu | hu
      · exact hs.there u hu id hadmitted
      · rw [mem_singleton.mp hu, hbegins] at hadmitted
        cases hadmitted
  | _ => exact ⟨hs.useCount, hs.there⟩

theorem countsUses_of_reachable (hs : system.Reachable s) : CountsUses s := by
  have hboth : Sound s ∧ CountsUses s := by
    refine hs.invariant (I := fun s => Sound s ∧ CountsUses s)
      (fun s hs => ⟨sound_of_reachable (TransitionSystem.ReachableBy.start hs), ?_⟩)
      fun s a s' hs _ hstep => ⟨hs.1.act hstep, hs.2.act hs.1 hstep⟩
    obtain rfl := hs
    exact ⟨fun inv hinv => absurd hinv not_mem_nil, fun t ht => absurd ht not_mem_nil⟩
  exact hboth.2

/-! ## What an acceptance does to the tables -/

/-- What calls write that accept invites, and what the others do. -/
def Separate : WorkspaceTask → Prop
  | .getRoom c _ | .members c _ _ => c.isAccept = false
  | .getInvite c _ => c.isAccept = true
  | .locking g _ _ | .revoking g _ _ | .insertRoomMember g _ _ | .insertRoom g _ | .insertDM g _
  | .removing g _ _ | .promoting g _ _ | .addDM g _ _ _ _ => g.call.isAccept = false
  | .adding g _ _ _ | .welcoming g _ | .consuming g _ _ _ | .joining g _ _ => g.call.isAccept = true
  | .logging g w _ _ | .commit g w _ => g.call.isAccept = w.isAccept
  | .done _ => True

theorem separate_decides {room : Option WorkspaceRoom} (h : g.call.isAccept = false) :
    Separate (s.decides g room) := by
  unfold decides
  split
  all_goals
    repeat' split
    all_goals first
      | exact trivial
      | exact h

theorem separate_turn (h : Separate t) : Separate (s.turn t) := by
  cases t with
  | getRoom =>
    simp only [turn]
    split
    · exact h
    · exact trivial
  | getInvite =>
    simp only [turn]
    split
    · split
      · exact trivial
      · exact h
    · exact trivial
  | locking _ _ todo =>
    cases todo with
    | nil => exact separate_decides h
    | cons => exact h
  | welcoming =>
    simp only [turn]
    split <;> exact trivial
  | consuming =>
    simp only [turn]
    split
    · split
      · exact h
      · exact trivial
    · exact trivial
  | insertRoomMember =>
    simp only [turn]
    split
    · split <;> exact h
    · exact h
  | insertRoom =>
    simp only [turn]
    split
    · exact trivial
    · exact h
  | adding | insertDM =>
    simp only [turn]
    split <;> exact h
  | addDM _ _ _ todo =>
    cases todo with
    | nil => exact h
    | cons =>
      simp only [turn]
      split <;> exact h
  | logging _ _ todo =>
    cases todo with
    | nil =>
      simp only [turn]
      split
      · split
        · exact h
        · exact trivial
      · exact h
    | cons => exact h
  | _ => exact h

theorem separate_of_reachable (hs : system.Reachable s) : ∀ t ∈ s.tasks, Separate t := by
  refine hs.invariant (I := fun s => ∀ t ∈ s.tasks, Separate t) (fun s hs => ?_)
    fun s a s' hs _ hstep => ?_
  · obtain rfl := hs
    exact fun t ht => nomatch ht
  · have hset : ∀ {i t'}, Separate t' → ∀ u ∈ s.tasks.set i t', Separate u := fun ht' u hu =>
      (mem_or_eq_of_mem_set hu).elim (hs u) fun heq => heq ▸ ht'
    cases step_of_act hstep with
    | turn hi => exact hset (separate_turn (hs _ (mem_of_getElem? hi)))
    | commit | fail => exact hset trivial
    | start =>
      intro u hu
      rcases mem_append.mp hu with hu | hu
      · exact hs u hu
      · rw [mem_singleton.mp hu]
        unfold WorkspaceCall.begins
        split
        · exact trivial
        · split <;> rfl
    | _ => exact hs

/-- An acceptance goes on, or has failed. -/
def Accepts (t : WorkspaceTask) : Prop := ∃ c ∈ t.call?, c.isAccept

/-- **An acceptance makes somebody a member, or changes nothing**: of its steps only one changes the
tables, by which it ends, and whoever it is about was no member then. -/
theorem admits_or_rests (hs : system.Reachable s) (hi : s.tasks[i]? = some t) (ht : Accepts t)
    (ha : a = .step i ∨ a = .fail i) (hact : s.act a = some s') :
    s'.tables = s.tables ∨ ∃ ws user id joins,
      s'.tasks[i]? = some (.done (.wrote (.accept ws user id joins))) ∧
        s.tables.members ws user = none ∧ (s'.tables.role ws user).isMember := by
  have hlt : i < s.tasks.length := (List.getElem?_eq_some_iff.mp hi).1
  cases step_of_act hact with
  | @commit j g w logged d hj hd =>
    obtain rfl : j = i := by
      rcases ha with ha | ha
      · exact WorkspaceAction.step.inj ha
      · cases ha
    obtain rfl := Option.some.inj (hi.symm.trans hj)
    obtain ⟨-, hw⟩ := (sound_of_reachable hs).fits _ (mem_of_getElem? hi)
    have hsep := separate_of_reachable hs _ (mem_of_getElem? hi)
    obtain ⟨c, hc, haccept⟩ := ht
    cases hc
    cases w with
    | accept ws user id joins =>
      cases hd
      refine .inr ⟨ws, user, id, joins, getElem?_set_self hlt, hw.2.1, ?_⟩
      have hm : (s.tables.addMember ws user .member).members ws user =
          some ⟨.member, s.tables.rows⟩ := by
        rw [members_addMember, if_pos ⟨rfl, rfl⟩]
      have hrole : (s.tables.addMember ws user .member).role ws user = .member :=
        role_of_members hm
      show ((s.tables.addMember ws user .member).role ws user).isMember
      rw [hrole]
      rfl
    | _ => exact absurd (haccept.symm.trans hsep) (by simp [WorkspaceWrite.isAccept])
  | room hother =>
    exact absurd ha (by simpa using hother i)
  | policy => exact nomatch ha
  | _ => exact .inl rfl

/-! ## From one step of a call to a later one -/

/-- **What a call keeps as it goes on** is so until it ends. -/
theorem keeps_of_steps {P : WorkspaceTask → Prop}
    (hturn : ∀ (v : WorkspaceService) t, P t → (∀ g w logged, t ≠ .commit g w logged) → P (v.turn t))
    (hcommit : ∀ g w logged, P (.commit g w logged) → P (.done (.wrote w)))
    (hfail : P (refuse (.chat .failed)))
    (hsteps : system.Steps (fun _ _ => True) s s') (hs : ∃ t, s.tasks[i]? = some t ∧ P t) :
    ∃ t, s'.tasks[i]? = some t ∧ P t := by
  refine hsteps.preserves (I := fun v => ∃ t, v.tasks[i]? = some t ∧ P t)
    (fun v a v' hv _ hstep => ?_) hs
  obtain ⟨t, hi, ht⟩ := hv
  have hlt : i < v.tasks.length := (List.getElem?_eq_some_iff.mp hi).1
  -- the call itself has gone on, or another one has
  have hset : ∀ {j u u'}, v.tasks[j]? = some u → (P u → P u') →
      ∃ t, (v.tasks.set j u')[i]? = some t ∧ P t := fun {j u u'} hj hgoes => by
    by_cases hij : j = i
    · subst hij
      obtain rfl := Option.some.inj (hi.symm.trans hj)
      exact ⟨u', getElem?_set_self hlt, hgoes ht⟩
    · exact ⟨t, by rw [getElem?_set_ne hij]; exact hi, ht⟩
  cases step_of_act hstep with
  | commit hj => exact hset hj (hcommit _ _ _)
  | turn hj _ hnot => exact hset hj fun h => hturn v _ h hnot
  | fail hj => exact hset hj fun _ => hfail
  | start => exact ⟨t, by rw [getElem?_append_left hlt]; exact hi, ht⟩
  | _ => exact ⟨t, hi, ht⟩

/-- An acceptance that has read the time goes by it. -/
def GoesBy (now : ℕ) : WorkspaceTask → Prop
  | .getInvite _ _ => False
  | .adding _ _ _ n | .consuming _ _ _ n => n = now
  | _ => True

theorem goesBy_turn (h : GoesBy now t) : GoesBy now (s.turn t) := by
  cases t with
  | getInvite => exact absurd h id
  | locking g room todo =>
    cases todo with
    | nil =>
      show GoesBy now (s.decides g room)
      unfold decides
      split
      all_goals
        repeat' split
        all_goals exact trivial
    | cons => exact trivial
  | adding =>
    simp only [turn]
    split
    · exact trivial
    · exact h
  | consuming | insertRoomMember =>
    simp only [turn]
    split
    · split <;> exact trivial
    · exact trivial
  | getRoom | welcoming | insertRoom | insertDM =>
    simp only [turn]
    split <;> exact trivial
  | addDM _ _ _ todo =>
    cases todo with
    | nil => exact trivial
    | cons =>
      simp only [turn]
      split <;> exact trivial
  | logging _ _ todo =>
    cases todo with
    | nil =>
      simp only [turn]
      split
      · split <;> exact trivial
      · exact trivial
    | cons => exact trivial
  | _ => exact trivial

/-- A transaction has written something, and writes nothing else. -/
def Writes (w : WorkspaceWrite) : WorkspaceTask → Prop
  | .logging _ w' _ _ | .commit _ w' _ | .done (.wrote w') => w' = w
  | .done (.refused _) => True
  | _ => False

theorem writes_turn (h : Writes w t) : Writes w (s.turn t) := by
  cases t with
  | logging _ _ todo =>
    cases todo with
    | nil =>
      simp only [turn]
      split
      · split
        · exact h
        · exact trivial
      · exact h
    | cons => exact h
  | commit | done => exact h
  | _ => exact absurd h id

/-! ## When a use is counted -/

/-- What a call does that counts a use. -/
theorem joining_of_act {g : Grip} {user id : ℕ}
    (hi : s.tasks[i]? = some (.consuming g user id now)) (hact : s.act (.step i) = some s')
    (hi' : s'.tasks[i]? = some t') (ht' : ∀ e, t' ≠ .done (.refused e)) :
    ∃ inv ∈ s.tables.invites, inv.id = id ∧ inv.consumable now ∧ t' = .joining g user id := by
  have hlt : i < s.tasks.length := (List.getElem?_eq_some_iff.mp hi).1
  cases step_of_act hact with
  | commit hj => cases hi.symm.trans hj
  | turn hj =>
    obtain rfl := Option.some.inj (hi.symm.trans hj)
    obtain rfl := Option.some.inj ((getElem?_set_self hlt).symm.trans hi')
    simp only [turn, refuse] at ht' ⊢
    cases hinv : s.tables.invite? id with
    | none =>
      rw [hinv] at ht'
      exact absurd rfl (ht' _)
    | some inv =>
      simp only [hinv] at ht' ⊢
      split at ht'
      · next hconsumable =>
        rw [if_pos hconsumable]
        exact ⟨inv, mem_of_find?_eq_some hinv, by simpa using find?_some hinv, hconsumable, rfl⟩
      · exact absurd rfl (ht' _)
  | room hother => exact absurd rfl (hother i).1

/-! ## The default rooms -/

/-- A room that was a default room is one of those that are joined. -/
theorem mem_joinDefaultRooms_of_default {r : WorkspaceRoom}
    (hk : d.Keyed) (hnone : d.members ws user = none) (hr : r ∈ d.rooms) (hws : r.workspaceId = ws)
    (hdefault : r.isDefault) : ⟨r.id, user, r.mark⟩ ∈ d.joinDefaultRooms ws user := by
  -- who is no member is in no room
  have hout : (d.roomMembers r.id user).isNone := by
    cases hm : d.roomMembers r.id user with
    | none => rfl
    | some =>
      obtain ⟨ws', hin, hmember⟩ := hk.inRooms r.id user (by rw [hm]; rfl)
      obtain rfl := hk.inWorkspace_unique ⟨r, hr, rfl, hws⟩ hin
      rw [hnone] at hmember
      cases hmember
  exact mem_map.mpr ⟨r, mem_filter.mpr ⟨hr, by simp [hws, hdefault, hout]⟩, rfl⟩

/-- Every room is joined once, so a row that is added is the one that is there. -/
theorem roomMembers_addJoins {d' : WorkspaceTables} {j : RoomJoin}
    (hk : d.Keyed) (hj : j ∈ d.joinDefaultRooms ws user) :
    (d'.addJoins (d.joinDefaultRooms ws user)).roomMembers j.roomId user = some j.mark := by
  have hfind : (d.joinDefaultRooms ws user).find?
      (fun x => decide (x.roomId = j.roomId ∧ x.userId = user)) = some j := by
    cases hx : (d.joinDefaultRooms ws user).find?
        fun x => decide (x.roomId = j.roomId ∧ x.userId = user) with
    | none =>
      exact absurd (decide_eq_true ⟨rfl, (mem_joinDefaultRooms hj).1⟩) (find?_eq_none.mp hx j hj)
    | some x =>
      have hid : x.roomId = j.roomId ∧ x.userId = user := by simpa using find?_some hx
      obtain ⟨r, hr, rfl⟩ := mem_map.mp (mem_of_find?_eq_some hx)
      obtain ⟨r', hr', rfl⟩ := mem_map.mp hj
      rw [inj_on_of_nodup_map hk.rooms (mem_of_mem_filter hr) (mem_of_mem_filter hr') hid.1]
  show ((d.joinDefaultRooms ws user).find? _).elim _ _ = _
  rw [hfind]
  rfl

/-- **Whoever is added is in every default room**, with nothing unread of what was there. -/
theorem inDefaultRooms_of_commit {s₁ s₂ s₃ : WorkspaceService} (hs : system.Reachable s)
    (hi : s.tasks[i]? = some (.joining g user id)) (hact : s.act (.step i) = some s₁)
    (hsteps : system.Steps (fun _ _ => True) s₁ s₂) (hact₂ : s₂.act (.step i) = some s₃)
    (hi₃ : s₃.tasks[i]? = some (.done (.wrote w))) :
    ∀ r ∈ s.tables.rooms, r.workspaceId = g.workspaceId → r.isDefault →
      s₃.tables.roomMembers r.id user = some r.mark := by
  intro r hr hws hdefault
  have hsound := sound_of_reachable hs
  have hlt : i < s.tasks.length := (List.getElem?_eq_some_iff.mp hi).1
  obtain ⟨-, -, hnone, -⟩ := hsound.fits _ (mem_of_getElem? hi)
  have hjoin := mem_joinDefaultRooms_of_default hsound.keyed hnone hr hws hdefault
  -- the rows are written once, and stay with the call
  have hfirst : ∃ t, s₁.tasks[i]? = some t ∧ Writes (.accept g.workspaceId user id
      (s.tables.joinDefaultRooms g.workspaceId user)) t := by
    cases step_of_act hact with
    | commit hj => cases hi.symm.trans hj
    | turn hj =>
      obtain rfl := Option.some.inj (hi.symm.trans hj)
      exact ⟨_, getElem?_set_self hlt, rfl⟩
    | room hother => exact absurd rfl (hother i).1
  obtain ⟨t, ht, hwrites⟩ := keeps_of_steps (fun v t h _ => writes_turn h)
    (fun g w logged h => h) trivial hsteps hfirst
  have hlt₂ : i < s₂.tasks.length := (List.getElem?_eq_some_iff.mp ht).1
  cases step_of_act hact₂ with
  | @commit _ g' w' logged d hj hd =>
    obtain rfl := Option.some.inj (ht.symm.trans hj)
    obtain rfl : w' = _ := hwrites
    cases hd
    exact roomMembers_addJoins hsound.keyed hjoin
  | turn hj _ _ hdone =>
    obtain rfl := Option.some.inj (ht.symm.trans hj)
    exact absurd (Option.some.inj ((getElem?_set_self hlt₂).symm.trans hi₃)) (turn_ne_wrote hdone w)
  | room hother => exact absurd rfl (hother i).1

/-! ## Invites admit what they count -/

/-- **Invites admit exactly what they count.** An invite counts the committed acceptances that made
somebody a member, and never more than it may; an acceptance changes nothing but by making somebody
a member who was none; it does so only through an invite that is not revoked, and that had not
expired when the acceptance read the time; and whoever it adds is in every room that was a default
room when they joined, with nothing unread of what was there before. -/
theorem invites_admit_what_they_count (hs : system.Reachable s) : (∀ inv ∈ s.tables.invites,
      inv.useCount = s.tasks.countP (WorkspaceTask.admittedBy inv.id) ∧
      ∀ n ∈ inv.maxUses, inv.useCount ≤ n) ∧
    (∀ (i : ℕ) t a s', s.tasks[i]? = some t → Accepts t → a = .step i ∨ a = .fail i →
      s.act a = some s' → s'.tables = s.tables ∨ ∃ ws user id joins,
        s'.tasks[i]? = some (.done (.wrote (.accept ws user id joins))) ∧
          s.tables.members ws user = none ∧ (s'.tables.role ws user).isMember) ∧
    (∀ (i : ℕ) c codeHash s₁ s₂ s₃ g user id now t, s.tasks[i]? = some (.getInvite c codeHash) →
      s.act (.step i) = some s₁ → system.Steps (fun _ _ => True) s₁ s₂ →
      s₂.tasks[i]? = some (.consuming g user id now) → s₂.act (.step i) = some s₃ →
      s₃.tasks[i]? = some t → (∀ e, t ≠ .done (.refused e)) →
      ∃ inv ∈ s₂.tables.invites, inv.id = id ∧ inv.revokedAt = none ∧ s.clock < inv.expiresAt) ∧
    (∀ (i : ℕ) g user id joins logged inv, s.tasks[i]? =
      some (.commit g (.accept g.workspaceId user id joins) logged) → inv ∈ s.tables.invites →
      inv.id = id → inv.revokedAt = none) ∧
    (∀ (i : ℕ) g user id s₁ s₂ s₃ w, s.tasks[i]? = some (.joining g user id) →
      s.act (.step i) = some s₁ → system.Steps (fun _ _ => True) s₁ s₂ →
      s₂.act (.step i) = some s₃ → s₃.tasks[i]? = some (.done (.wrote w)) →
      ∀ r ∈ s.tables.rooms, r.workspaceId = g.workspaceId → r.isDefault →
        s₃.tables.roomMembers r.id user = some r.mark) := by
  have hsound := sound_of_reachable hs
  refine ⟨fun inv hinv => ⟨(countsUses_of_reachable hs).useCount inv hinv, hsound.keyed.uses inv hinv⟩,
    fun i t a s' hi ht ha hact => admits_or_rests hs hi ht ha hact, ?_, ?_,
    fun i g user id s₁ s₂ s₃ w hi hact hsteps hact₂ hi₃ =>
      inDefaultRooms_of_commit hs hi hact hsteps hact₂ hi₃⟩
  · intro i c codeHash s₁ s₂ s₃ g user id now t hi hact hsteps hi₂ hact₂ hi₃ ht
    have hlt : i < s.tasks.length := (List.getElem?_eq_some_iff.mp hi).1
    -- the time that the acceptance goes by is the one of the step that finds the invite
    have hfirst : ∃ u, s₁.tasks[i]? = some u ∧ GoesBy s.clock u := by
      cases step_of_act hact with
      | commit hj => cases hi.symm.trans hj
      | turn hj =>
        obtain rfl := Option.some.inj (hi.symm.trans hj)
        refine ⟨_, getElem?_set_self hlt, ?_⟩
        simp only [turn]
        split
        · split
          · exact trivial
          · exact rfl
        · exact trivial
      | room hother => exact absurd rfl (hother i).1
    obtain ⟨u, hu, hgoesBy⟩ := keeps_of_steps (fun v t h _ => goesBy_turn h)
      (fun _ _ _ _ => trivial) trivial hsteps hfirst
    obtain rfl := Option.some.inj (hu.symm.trans hi₂)
    obtain rfl : now = s.clock := hgoesBy
    obtain ⟨inv, hinv, hid, hconsumable, -⟩ := joining_of_act hi₂ hact₂ hi₃ ht
    obtain ⟨hboth, -⟩ := Bool.and_eq_true_iff.mp hconsumable
    obtain ⟨hrevoked, hexpires⟩ := Bool.and_eq_true_iff.mp hboth
    exact ⟨inv, hinv, hid, by simpa using hrevoked, of_decide_eq_true hexpires⟩
  · intro i g user id joins logged inv hi hinv hid
    obtain ⟨-, -, -, ⟨inv', hinv', hid', -, hrevoked, -⟩, -⟩ := hsound.fits _ (mem_of_getElem? hi)
    rwa [inj_on_of_nodup_map hsound.keyed.invites hinv hinv' (hid.trans hid'.symm)]

/-- The first acceptance of the populated workspace is counted. -/
theorem invites_admit_what_they_count_once :
    ∃ s, system.Reachable s ∧ (s.tables.role 10 2).isMember ∧ ∃ inv ∈ s.tables.invites,
      inv.useCount = 1 ∧ s.tasks.countP (WorkspaceTask.admittedBy inv.id) = 1 := by
  have hrun : (system.run empty populated).any (fun s =>
      decide ((s.tables.role 10 2).isMember) &&
      s.tables.invites.any fun inv => decide (inv.useCount = 1)) = true := by
    decide +kernel
  obtain ⟨s, hreach, htest⟩ := exists_of_run hrun rfl
  obtain ⟨hmember, hinvites⟩ := Bool.and_eq_true_iff.mp htest
  obtain ⟨inv, hinv, hone⟩ := any_eq_true.mp hinvites
  obtain ⟨hcount, -⟩ := (invites_admit_what_they_count hreach).1 inv hinv
  exact ⟨s, hreach, of_decide_eq_true hmember, inv, hinv, of_decide_eq_true hone,
    hcount.symm.trans (of_decide_eq_true hone)⟩

/-- **A use counted after the expiry.** An acceptance finds the invite while it may be used, waits
until it has expired, and only then counts its use – by the time that it read before. -/
theorem consumed_after_expiry : ∃ s s₁ s₂ g now w, system.Reachable s ∧
      (∃ inv ∈ s.tables.invites, inv.id = 5 ∧ inv.expiresAt ≤ s.clock ∧ inv.useCount = 0) ∧
      s.tasks[3]? = some (.consuming g 2 5 now) ∧ s.act (.step 3) = some s₁ ∧
      system.Steps (fun _ _ => True) s₁ s₂ ∧ s₂.tasks[3]? = some (.done (.wrote w)) ∧
      (s₂.tables.role 10 2).isMember ∧ ∃ inv ∈ s₂.tables.invites, inv.id = 5 ∧ inv.useCount = 1 := by
  have hrun : (system.run empty (opened ++ [.start (.acceptInvite 2 "x"), .step 3] ++
      List.replicate 60 .tick ++ [.step 3])).any (fun s =>
      decide (s.tasks[3]? = some (.consuming ⟨.acceptInvite 2 "x", 10, none, []⟩ 2 5 0)) &&
      (s.tables.invites.any fun inv =>
        decide (inv.id = 5 ∧ inv.expiresAt ≤ s.clock ∧ inv.useCount = 0)) &&
      (s.act (.step 3)).any fun s₁ =>
        (system.run s₁ [.step 3, .step 3, .step 3, .step 3]).any fun s₂ =>
          s₂.tasks[3]?.any (fun t => t.admittedBy 5) &&
          (s₂.tables.invites.any fun inv => decide (inv.id = 5 ∧ inv.useCount = 1)) &&
          decide ((s₂.tables.role 10 2).isMember)) = true := by
    decide +kernel
  obtain ⟨s, hreach, htest⟩ := exists_of_run hrun rfl
  obtain ⟨hbefore, hact⟩ := Bool.and_eq_true_iff.mp htest
  obtain ⟨htask, hinvites⟩ := Bool.and_eq_true_iff.mp hbefore
  obtain ⟨s₁, hs₁, hafter⟩ := (Option.any_eq_true _ _).mp hact
  obtain ⟨s₂, hs₂, htest₂⟩ := (Option.any_eq_true _ _).mp hafter
  obtain ⟨hboth, hmember⟩ := Bool.and_eq_true_iff.mp htest₂
  obtain ⟨htask₂, hinvites₂⟩ := Bool.and_eq_true_iff.mp hboth
  obtain ⟨t₂, ht₂, hadmitted⟩ := (Option.any_eq_true _ _).mp htask₂
  obtain ⟨inv, hinv, hexpired⟩ := any_eq_true.mp hinvites
  obtain ⟨inv₂, hinv₂, hused⟩ := any_eq_true.mp hinvites₂
  obtain ⟨w, rfl⟩ : ∃ w, t₂ = .done (.wrote w) := by
    by_contra hnone
    have hnot : t₂.admittedBy 5 = false := not_admittedBy_of_ne fun w hw => hnone ⟨w, hw⟩
    exact Bool.false_ne_true (hnot.symm.trans hadmitted)
  exact ⟨s, s₁, s₂, _, _, _, hreach, ⟨inv, hinv, of_decide_eq_true hexpired⟩,
    of_decide_eq_true htask, hs₁, steps_of_run (P := fun _ _ => True) (fun _ _ _ => trivial) hs₂,
    ht₂, of_decide_eq_true hmember, inv₂, hinv₂, of_decide_eq_true hused⟩

end WorkspaceService

end Hibari
