import Hibari.RoomSettings

/-!
# The settings of an archived room

Nobody changes an archived room, and a default room is neither archived nor deleted: who may
do what says so. Together that should keep a room from being both, in which state it could be
neither brought back nor changed nor deleted. But each call decides by the row as it was, and
the statements that lock the row ask at most for the flag that they write. So an administrator
can make a room a default room that somebody archives meanwhile (`default_room_archived`).

Where a call finds the flag that it was decided by still as it was, once it has the room's
row, archived rooms rest and default rooms stay (`frozen_while_archived`).
-/

namespace Hibari

/-- **A call is not overtaken** that is about to take the room's row: a room that is changed,
or that gets a member, is not archived, and one that is archived or deleted is no default
room. -/
def RoomCallTask.Timely (r : RoomState) : RoomCallTask → Prop
  | update _ _ _ _ | logMember (.join _) _ => r.archived = false
  | archiveLog _ archive => archive = true → r.isDefault = false
  | deleteLock => r.isDefault = false
  | _ => True

instance (r : RoomState) (t : RoomCallTask) : Decidable (t.Timely r) := by
  unfold RoomCallTask.Timely
  split <;> infer_instance

/-- What holds of the room as long as a transaction has its row. -/
def RoomWrite.Admits (r : RoomState) : RoomWrite → Prop
  | update _ _ _ _ | member (.join _) => r.archived = false
  | archive _ flag => flag = true → r.isDefault = false
  | delete => r.isDefault = false
  | _ => True

/-- What holds of the room as long as a call has its row. -/
def RoomCallTask.Admits (r : RoomState) : RoomCallTask → Prop
  | archiveFlag _ archive => archive = true → r.isDefault = false
  | deleteRow => r.isDefault = false
  | confirm _ w | commit w => w.Admits r
  | _ => True

namespace RoomDesk

variable {d : RoomStanding} {s s' : RoomDesk} {a : RoomDeskAction} {i : ℕ} {t t' : RoomCallTask}
  {r r' : RoomState} {rows : List RoomRow} {w : RoomWrite}

theorem admits_of_info (hinfo : r'.toRoomInfo = r.toRoomInfo) (hw : w.Admits r) : w.Admits r' := by
  have hdefault : r'.isDefault = r.isDefault := congrArg RoomInfo.isDefault hinfo
  have harchived : r'.archived = r.archived := congrArg RoomInfo.archived hinfo
  cases w with
  | update => exact harchived.trans hw
  | archive => exact fun harchive => hdefault.trans (hw harchive)
  | delete => exact hdefault.trans hw
  | member w =>
    cases w with
    | join => exact harchived.trans hw
    | remove => trivial
  | nothing => trivial

theorem spares_write (hw : w.Admits r) (hs : Spares rows r r') (hrows : ∀ x ∈ w.held, x ∉ rows) :
    w.Admits r' := by
  cases w with
  | nothing => trivial
  | member => exact admits_of_info (hs.info (hrows _ (.head _))) hw
  | _ => exact admits_of_info (hs.info (hrows _ (.head _))) hw

/-- Others leave the flags, as long as they do not have the room's row. -/
theorem spares_admits (ht : t.Admits r) (hs : Spares rows r r') (hrows : ∀ x ∈ t.held, x ∉ rows) :
    t.Admits r' := by
  cases t with
  | archiveFlag =>
    have hinfo := hs.info (hrows _ (.head _))
    exact fun harchive => (congrArg RoomInfo.isDefault hinfo).trans (ht harchive)
  | deleteRow =>
    have hinfo := hs.info (hrows _ (.head _))
    exact (congrArg RoomInfo.isDefault hinfo).trans ht
  | confirm _ w | commit w => exact spares_write (w := w) ht hs hrows
  | _ => trivial

theorem admits_finish {reader : Option Ulid} (hw : w.Admits r) :
    (RoomCallTask.finish reader w).Admits r := by
  cases reader <;> exact hw

/-- A call that is not overtaken when it takes the room's row goes by what holds. -/
theorem Turn.admits (hturn : Turn d s t t') (htimely : t.Timely r) (ht : t.Admits r) :
    t'.Admits r := by
  cases hturn with
  | @begins c room hrefusal =>
    unfold RoomCall.begins
    split <;> trivial
  | update | archiveLog | deleteLock => exact htimely
  | known => exact admits_finish (w := .nothing) trivial
  | @logMember w reader hfree =>
    refine admits_finish ?_
    cases w with
    | join => exact htimely
    | remove => trivial
  | archiveFlag | deleteRow | confirm => exact ht
  | _ => trivial

/-- **Calls that take the room's row find it as they decided by.** -/
def SafeSettings (s : RoomDesk) : RoomDeskAction → Prop
  | .step i => ∀ t ∈ s.tasks[i]?, ∀ r ∈ s.room, t.Timely r
  | _ => True

instance (s : RoomDesk) (a : RoomDeskAction) : Decidable (SafeSettings s a) := by
  unfold SafeSettings
  split <;> infer_instance

/-- **Archived rooms rest, and default rooms stay.** -/
structure Settled (s : RoomDesk) : Prop where
  apart : HeldRows.Apart RoomCallTask.held s.tasks
  admits : ∀ r, s.room = some r → ∀ t ∈ s.tasks, t.Admits r
  apartFlags : ∀ r, s.room = some r → ¬ (r.archived = true ∧ r.isDefault = true)

/-! ## What a commit does to the flags -/

theorem renamed_archived (r : RoomState) (actor : Ulid) (name : Option String)
    (isDefault : Option Bool) (previousName : Option String) :
    (r.renamed actor name isDefault previousName).archived = r.archived := by
  unfold RoomState.renamed
  split
  · split <;> rfl
  · rfl

/-- A transaction that goes by what holds does not make an archived room a default room. -/
theorem apartFlags_perform (hw : w.Admits r) (hperform : r.perform w = some r')
    (hr : ¬ (r.archived = true ∧ r.isDefault = true)) :
    ¬ (r'.archived = true ∧ r'.isDefault = true) := by
  cases w with
  | nothing =>
    cases hperform
    exact hr
  | update =>
    cases hperform
    have hopen : r.archived = false := hw
    rw [renamed_archived, hopen]
    exact fun hboth => nomatch hboth.1
  | archive =>
    cases hperform
    rintro ⟨harchive, hdefault⟩
    have hplain : r.isDefault = false := hw harchive
    cases hplain.symm.trans hdefault
  | delete => exact absurd hperform (by simp [RoomState.perform])
  | member w =>
    cases hperform
    cases w <;> exact hr

/-- **A transaction that goes by what holds** leaves an archived room as it is: nobody joins. -/
theorem frozen_perform (hw : w.Admits r) (hperform : r.perform w = some r')
    (harchived : r.archived = true) :
    r'.name = r.name ∧ r'.isDefault = r.isDefault ∧ r'.members ⊆ r.members := by
  cases w with
  | update =>
    have hopen : r.archived = false := hw
    cases hopen.symm.trans harchived
  | delete => exact absurd hperform (by simp [RoomState.perform])
  | member w =>
    cases w with
    | join =>
      have hopen : r.archived = false := hw
      cases hopen.symm.trans harchived
    | remove target _ found =>
      cases hperform
      refine ⟨rfl, rfl, ?_⟩
      show (if found = true then r.members.erase target else r.members) ⊆ r.members
      split
      · exact Finset.erase_subset _ _
      · exact Finset.Subset.refl _
  | _ =>
    cases hperform
    exact ⟨rfl, rfl, Finset.Subset.refl _⟩

theorem Settled.act (hs : s.Settled) (hsafe : SafeSettings s a) (hact : act d s a = some s') :
    s'.Settled where
  apart := apart_act hs.apart hact
  admits := by
    refine holds_act (P := fun r t => t.Admits r) spares_admits (fun _ _ => trivial)
      (fun _ _ => trivial) (fun i r t t' ha hi hr ht hturn => ?_) hs.apart hs.admits hact
    rw [ha] at hsafe
    exact hturn.admits (hsafe t hi r hr) ht
  apartFlags r' hr' := by
    obtain ⟨r, hr, rfl | ⟨n, -, rfl⟩ | ⟨i, w, -, hi, hperform⟩⟩ := room_of_act hact hr'
    · exact hs.apartFlags r' hr
    · exact hs.apartFlags r hr
    · have hw : w.Admits r := hs.admits r hr _ (List.mem_of_getElem? hi)
      exact apartFlags_perform hw hperform (hs.apartFlags r hr)

theorem settled_of_init (hinit : (system d).init s) : s.Settled := by
  obtain ⟨r, rfl, hcreated⟩ := hinit
  refine ⟨HeldRows.apart_nil, fun _ _ t ht => absurd ht List.not_mem_nil, fun r' hr' hboth => ?_⟩
  obtain rfl := Option.some.inj hr'
  cases hcreated.archived.symm.trans hboth.1

/-- **Archived rooms are frozen, and default rooms stay**, where no call is overtaken. A room
is never both archived and a default room; nothing that commits while it is archived changes
its name, or whether it is a default room, or adds a member; and no default room is deleted. -/
theorem frozen_while_archived (hreachable : (system d).ReachableBy SafeSettings s) :
    (∀ r, s.room = some r → ¬ (r.archived = true ∧ r.isDefault = true)) ∧
    (∀ a s' r r', (system d).step s a = some s' → s.room = some r → s'.room = some r' →
      r.archived = true → r'.name = r.name ∧ r'.isDefault = r.isDefault ∧ r'.members ⊆ r.members) ∧
    ∀ a s' r, (system d).step s a = some s' → s.room = some r → s'.room = none →
      r.isDefault = false := by
  have hs : s.Settled := hreachable.invariant (fun _ hinit => settled_of_init hinit)
    fun _ _ _ hu hsafe hstep => hu.act hsafe hstep
  refine ⟨hs.apartFlags, fun a s' r r' hstep hr hr' harchived => ?_, fun a s' r hstep hr hnone => ?_⟩
  · have hact : act d s a = some s' := hstep
    obtain ⟨r₀, hr₀, hcases⟩ := room_of_act hact hr'
    obtain rfl := Option.some.inj (hr.symm.trans hr₀)
    rcases hcases with rfl | ⟨n, -, rfl⟩ | ⟨i, w, -, hi, hperform⟩
    · exact ⟨rfl, rfl, Finset.Subset.refl _⟩
    · exact ⟨rfl, rfl, Finset.Subset.refl _⟩
    · exact frozen_perform (hs.admits r hr _ (List.mem_of_getElem? hi)) hperform harchived
  · have hact : act d s a = some s' := hstep
    rcases act_cases hact with hc | ⟨c, -, rfl⟩ | ⟨i, t, t', -, -, rfl, -⟩
    · cases hc with
      | @commit i w hi =>
        have hw : w.Admits r := hs.admits r hr _ (List.mem_of_getElem? hi)
        have hdeleted : s.room.bind (fun r => r.perform w) = none := hnone
        rw [hr, Option.bind_some] at hdeleted
        cases w with
        | delete => exact hw
        | _ => exact absurd hdeleted (by simp [RoomState.perform])
      | post => cases hnone
    · cases hr.symm.trans hnone
    · cases hr.symm.trans hnone

/-- The room is archived, and a call that would rename it comes too late. -/
theorem frozen_while_archived_two :
    ∃ s r, (system twoPeople).ReachableBy SafeSettings s ∧ s.room = some r ∧ r.archived = true ∧
      r.isDefault = false ∧ s.tasks[1]? = some (.done (.refused .roomArchived)) ∧
      ∀ a s' r', (system twoPeople).step s a = some s' → s'.room = some r' →
        r'.name = r.name ∧ r'.isDefault = r.isDefault ∧ r'.members ⊆ r.members := by
  have hrun : ((system twoPeople).runBy SafeSettings ⟨some newRoom, []⟩
      [.start (.setRoomArchived 2 true), .step 0, .step 0, .step 0, .step 0, .step 0, .step 0,
        .start (.updateRoom 1 (some "b") (some true)), .step 1, .step 1]).any (fun s =>
      decide (s.tasks[1]? = some (.done (.refused .roomArchived))) &&
      s.room.any fun r => r.archived) = true := by
    decide +kernel
  obtain ⟨s, hreachable, htest⟩ := TransitionSystem.exists_of_runBy hrun init_newRoom
  obtain ⟨hdone, htest⟩ := (Bool.and_eq_true _ _).mp htest
  obtain ⟨r, hr, harchived⟩ := (Option.any_eq_true _ _).mp htest
  obtain ⟨hapart, hfrozen, -⟩ := frozen_while_archived hreachable
  refine ⟨s, r, hreachable, hr, harchived, ?_, of_decide_eq_true hdone,
    fun a s' r' hstep hr' => hfrozen a s' r r' hstep hr hr' harchived⟩
  exact Bool.eq_false_of_not_eq_true fun hdefault => hapart r hr ⟨harchived, hdefault⟩

/-- **A default room is archived.** An administrator makes the room a default room, and the
member archives it before the call gets to the row. -/
theorem default_room_archived :
    ∃ s r, (system twoPeople).Reachable s ∧ s.room = some r ∧ r.archived = true ∧
      r.isDefault = true := by
  have hrun : ((system twoPeople).run ⟨some newRoom, []⟩
      [.start (.updateRoom 1 none (some true)), .start (.setRoomArchived 2 true), .step 0, .step 0,
        .step 1, .step 1, .step 1, .step 1, .step 1, .step 1, .step 0, .step 0, .step 0]).any
      (fun s => s.room.any fun r => decide (r.archived = true ∧ r.isDefault = true)) = true := by
    decide +kernel
  obtain ⟨s, hreach, htest⟩ := TransitionSystem.exists_of_run hrun init_newRoom
  obtain ⟨r, hr, hboth⟩ := (Option.any_eq_true _ _).mp htest
  exact ⟨s, r, hreach, hr, of_decide_eq_true hboth⟩

end RoomDesk

end Hibari
