import Hibari.Replay
import Hibari.RoomSettings

/-!
# The log of a room as its history

Whoever joins a room or leaves it, renames it, archives it or brings it back leaves a line in
the room's log. A new member and a new flag are known by what the statement says it has
changed; a member who leaves, and the name that was, by what was read before. So a member
who leaves and is removed at the same time has left twice (`left_twice`), and a room that is
renamed twice at once skips a name.

Where the row of a member who leaves is found, and a new name replaces the one that was read,
the log is a faithful history: it can be replayed, and says what the room is
(`log_is_history`).
-/

namespace Hibari

open List Option

open Replay

/-- What the log of a room is about. -/
structure RoomFacts where
  name : Option String
  archived : Bool
  members : Finset Ulid
  deriving DecidableEq

def RoomState.facts (r : RoomState) : RoomFacts := ⟨r.name, r.archived, r.members⟩

/-- **What a log line says**, if it fits. -/
def RoomFacts.apply (f : RoomFacts) (line : RoomLine) : Option RoomFacts :=
  match line.event.type with
  | .memberJoined =>
    if line.senderId ∈ f.members then none
    else some { f with members := insert line.senderId f.members }
  | .memberLeft | .memberRemoved =>
    if line.senderId ∈ f.members then some { f with members := f.members.erase line.senderId }
    else none
  | .roomRenamed =>
    if line.event.oldName = f.name ∧ line.event.newName ≠ f.name then
      some { f with name := line.event.newName }
    else none
  | .roomArchived => if f.archived then none else some { f with archived := true }
  | .roomUnarchived => if f.archived then some { f with archived := false } else none
  | _ => some f

/-- What a line says of a user: whether a member from then on. -/
def memberLine (user : Ulid) (line : RoomLine) : Option Bool :=
  if line.senderId = user then
    match line.event.type with
    | .memberJoined => some true
    | .memberLeft | .memberRemoved => some false
    | _ => none
  else none

/-- What it says of the room's name: the old one and the new one. -/
def renameLine (line : RoomLine) : Option (Option String × Option String) :=
  if line.event.type = .roomRenamed then some (line.event.oldName, line.event.newName) else none

/-- What it says of the flag. -/
def archiveLine (line : RoomLine) : Option Bool :=
  match line.event.type with
  | .roomArchived => some true
  | .roomUnarchived => some false
  | _ => none

/-- **What a line says**, case by case. -/
inductive RoomFacts.Says (f : RoomFacts) (line : RoomLine) : RoomFacts → Prop
  | joined : line.event.type = .memberJoined → line.senderId ∉ f.members →
      Says f line { f with members := insert line.senderId f.members }
  | left : line.event.type = .memberLeft ∨ line.event.type = .memberRemoved →
      line.senderId ∈ f.members → Says f line { f with members := f.members.erase line.senderId }
  | renamed : line.event.type = .roomRenamed → line.event.oldName = f.name →
      line.event.newName ≠ f.name → Says f line { f with name := line.event.newName }
  | archived : line.event.type = .roomArchived → f.archived = false →
      Says f line { f with archived := true }
  | unarchived : line.event.type = .roomUnarchived → f.archived = true →
      Says f line { f with archived := false }
  | other : line.event.type = .roomCreated ∨ line.event.type = .messagePinned ∨
      line.event.type = .huddle → Says f line f

section Facts

variable {f f' : RoomFacts} {line : RoomLine} {l : List RoomLine} {user : Ulid}

theorem RoomFacts.says_of_apply (h : f.apply line = some f') : f.Says line f' := by
  have hsome : ∀ {P : Prop} [Decidable P] {g : RoomFacts}, (if P then some g else none) = some f' →
      P ∧ g = f' := fun {P} _ {g} hif => by
    by_cases hP : P
    · rw [if_pos hP] at hif
      exact ⟨hP, some.inj hif⟩
    · rw [if_neg hP] at hif
      cases hif
  have hnone : ∀ {P : Prop} [Decidable P] {g : RoomFacts}, (if P then none else some g) = some f' →
      ¬ P ∧ g = f' := fun {P} _ {g} hif => by
    by_cases hP : P
    · rw [if_pos hP] at hif
      cases hif
    · rw [if_neg hP] at hif
      exact ⟨hP, some.inj hif⟩
  unfold RoomFacts.apply at h
  split at h
  · next htype =>
    obtain ⟨hnot, rfl⟩ := hnone h
    exact .joined htype hnot
  · next htype =>
    obtain ⟨hmem, rfl⟩ := hsome h
    exact .left (.inl htype) hmem
  · next htype =>
    obtain ⟨hmem, rfl⟩ := hsome h
    exact .left (.inr htype) hmem
  · next htype =>
    obtain ⟨⟨hold, hnew⟩, rfl⟩ := hsome h
    exact .renamed htype hold hnew
  · next htype =>
    obtain ⟨hnot, rfl⟩ := hnone h
    exact .archived htype (Bool.eq_false_of_not_eq_true hnot)
  · next htype =>
    obtain ⟨harchived, rfl⟩ := hsome h
    exact .unarchived htype harchived
  · next hjoined hleft hremoved hrenamed harchived hunarchived =>
    cases h
    refine .other ?_
    cases htype : line.event.type with
    | roomCreated => exact .inl rfl
    | messagePinned => exact .inr (.inl rfl)
    | huddle => exact .inr (.inr rfl)
    | memberJoined => exact absurd htype hjoined
    | memberLeft => exact absurd htype hleft
    | memberRemoved => exact absurd htype hremoved
    | roomRenamed => exact absurd htype hrenamed
    | roomArchived => exact absurd htype harchived
    | roomUnarchived => exact absurd htype hunarchived

theorem memberLine_of_ne (h : line.senderId ≠ user) : memberLine user line = none := if_neg h

/-- A line turns whether a user is a member, or leaves it. -/
theorem says_member (h : f.Says line f') : (∀ x, memberLine user line = some x →
      turn (decide (user ∈ f.members)) x = some (decide (user ∈ f'.members))) ∧
    (memberLine user line = none → decide (user ∈ f'.members) = decide (user ∈ f.members)) := by
  have hother : memberLine user line = none → (user ∈ f'.members ↔ user ∈ f.members) →
      (∀ x, memberLine user line = some x →
        turn (decide (user ∈ f.members)) x = some (decide (user ∈ f'.members))) ∧
      (memberLine user line = none → decide (user ∈ f'.members) = decide (user ∈ f.members)) := by
    intro hnone hiff
    refine ⟨fun x hx => absurd (hnone.symm.trans hx) (by simp), fun _ => decide_eq_decide.mpr hiff⟩
  by_cases huser : line.senderId = user
  · subst huser
    cases h with
    | joined htype hnot =>
      have hline : memberLine line.senderId line = some true := by
        unfold memberLine
        rw [if_pos rfl, htype]
      refine ⟨fun x hx => ?_, fun hnone => nomatch hnone.symm.trans hline⟩
      obtain rfl := some.inj (hline.symm.trans hx)
      rw [decide_eq_false hnot, decide_eq_true (Finset.mem_insert_self _ _)]
      rfl
    | left htype hmem =>
      have hline : memberLine line.senderId line = some false := by
        unfold memberLine
        rw [if_pos rfl]
        rcases htype with htype | htype <;> rw [htype]
      refine ⟨fun x hx => ?_, fun hnone => nomatch hnone.symm.trans hline⟩
      obtain rfl := some.inj (hline.symm.trans hx)
      rw [decide_eq_true hmem, decide_eq_false (Finset.notMem_erase _ _)]
      rfl
    | renamed htype => exact hother (by simp [memberLine, htype]) .rfl
    | archived htype => exact hother (by simp [memberLine, htype]) .rfl
    | unarchived htype => exact hother (by simp [memberLine, htype]) .rfl
    | other htype =>
      exact hother (by rcases htype with htype | htype | htype <;> simp [memberLine, htype]) .rfl
  · refine hother (memberLine_of_ne huser) ?_
    cases h with
    | joined =>
      show user ∈ insert line.senderId f.members ↔ _
      rw [Finset.mem_insert, or_iff_right (Ne.symm huser)]
    | left =>
      show user ∈ f.members.erase line.senderId ↔ _
      rw [Finset.mem_erase, and_iff_right (Ne.symm huser)]
    | _ => exact .rfl

/-- A line changes the name, or leaves it. -/
theorem says_name (h : f.Says line f') :
    (∀ x, renameLine line = some x → change f.name x = some f'.name) ∧
      (renameLine line = none → f'.name = f.name) := by
  have hother : line.event.type ≠ .roomRenamed → f'.name = f.name →
      (∀ x, renameLine line = some x → change f.name x = some f'.name) ∧
        (renameLine line = none → f'.name = f.name) := by
    intro htype hname
    have hnone : renameLine line = none := if_neg htype
    exact ⟨fun x hx => absurd (hnone.symm.trans hx) (by simp), fun _ => hname⟩
  cases h with
  | renamed htype hold hnew =>
    have hline : renameLine line = some (line.event.oldName, line.event.newName) := if_pos htype
    refine ⟨fun x hx => ?_, fun hnone => nomatch hnone.symm.trans hline⟩
    obtain rfl := some.inj (hline.symm.trans hx)
    exact if_pos ⟨hold, hnew⟩
  | joined htype => exact hother (by simp [htype]) rfl
  | left htype => exact hother (by rcases htype with htype | htype <;> simp [htype]) rfl
  | archived htype => exact hother (by simp [htype]) rfl
  | unarchived htype => exact hother (by simp [htype]) rfl
  | other htype => exact hother (by rcases htype with htype | htype | htype <;> simp [htype]) rfl

/-- A line turns the flag, or leaves it. -/
theorem says_archived (h : f.Says line f') :
    (∀ x, archiveLine line = some x → turn f.archived x = some f'.archived) ∧
      (archiveLine line = none → f'.archived = f.archived) := by
  cases h with
  | archived htype hflag =>
    refine ⟨fun x hx => ?_, fun hnone => ?_⟩
    · simp only [archiveLine, htype, some_inj] at hx
      rw [← hx, hflag]
      rfl
    · simp [archiveLine, htype] at hnone
  | unarchived htype hflag =>
    refine ⟨fun x hx => ?_, fun hnone => ?_⟩
    · simp only [archiveLine, htype, some_inj] at hx
      rw [← hx, hflag]
      rfl
    · simp [archiveLine, htype] at hnone
  | joined htype => exact ⟨fun x hx => by simp [archiveLine, htype] at hx, fun _ => rfl⟩
  | left htype =>
    exact ⟨fun x hx => by rcases htype with htype | htype <;> simp [archiveLine, htype] at hx,
      fun _ => rfl⟩
  | renamed htype => exact ⟨fun x hx => by simp [archiveLine, htype] at hx, fun _ => rfl⟩
  | other htype =>
    exact ⟨fun x hx => by rcases htype with htype | htype | htype <;> simp [archiveLine, htype] at hx,
      fun _ => rfl⟩

/-- **The lines about a user alternate** in a log that can be replayed. -/
theorem alternates_members (user : Ulid) (h : replay RoomFacts.apply f l = some f') :
    Alternates (decide (user ∈ f.members)) (l.filterMap (memberLine user))
      (decide (user ∈ f'.members)) :=
  alternates_of_replay (replay_filterMap (fun _ _ _ happly => says_member
    (RoomFacts.says_of_apply happly)) h)

variable (h : replay RoomFacts.apply f l = some f')
include h

/-- **The names follow one another.** -/
theorem chains_names : Chains f.name (l.filterMap renameLine) f'.name :=
  chains_of_replay (replay_filterMap (fun _ _ _ happly => says_name
    (RoomFacts.says_of_apply happly)) h)

/-- **The lines about the flag alternate.** -/
theorem alternates_archived : Alternates f.archived (l.filterMap archiveLine) f'.archived :=
  alternates_of_replay (replay_filterMap (fun _ _ _ happly => says_archived
    (RoomFacts.says_of_apply happly)) h)

end Facts

/-! ## What a call writes by -/

/-- What a transaction that writes a member goes by. -/
def MemberWrite.Fits (r : RoomState) : MemberWrite → Prop
  | join target => target ∉ r.members
  | remove target _ found => found = true ∧ target ∈ r.members

/-- What a transaction goes by that has the room's row. -/
def RoomWrite.Fits (r : RoomState) : RoomWrite → Prop
  | update _ name _ previousName => previousName.isSome ∧ (name.isSome → r.name = previousName)
  | archive _ flag => r.archived ≠ flag
  | member w => w.Fits r
  | _ => True

/-- **What a call goes by.** -/
def RoomCallTask.Fits (d : RoomStanding) (r : RoomState) : RoomCallTask → Prop
  | memberships _ room => room.name.isSome ↔ d.kind ≠ .roomDM
  | update _ _ _ previousName => previousName.isSome
  | logMember w _ => w.Fits r
  | confirm _ w | commit w => w.Fits r
  | _ => True

/-- **A call is up to date**: the name that an `UPDATE` replaces is the one that was read, and
the row of a member that is deleted is there. -/
def RoomCallTask.UpToDate (r : RoomState) : RoomCallTask → Prop
  | update _ name _ previousName => name.isSome → r.name = previousName
  | deleteMember target _ => target ∈ r.members
  | _ => True

instance (r : RoomState) (t : RoomCallTask) : Decidable (t.UpToDate r) :=
  match t with
  | .update _ name _ previousName =>
    inferInstanceAs (Decidable (name.isSome → r.name = previousName))
  | .deleteMember target _ => inferInstanceAs (Decidable (target ∈ r.members))
  | .access _ | .memberships _ _ | .archiveLog _ _ | .archiveFlag _ _ | .deleteLock | .deleteRow
  | .insertMember _ _ | .logMember _ _ | .confirm _ _ | .commit _ | .done _ => isTrue trivial

namespace RoomDesk

variable {d : RoomStanding} {s s' s₀ : RoomDesk} {a : RoomDeskAction} {i : ℕ}
  {t t' : RoomCallTask} {r r' r₀ : RoomState} {rows : List RoomRow} {w : RoomWrite}
  {m : MemberWrite} {actor : Ulid} {name : Option String} {isDefault : Option Bool}

theorem fits_member (hm : m.Fits r) (hs : Spares rows r r') (hrows : ∀ x ∈ m.held, x ∉ rows) :
    m.Fits r' := by
  cases m with
  | join target =>
    exact fun hmem => hm ((hs.members target (hrows _ (.head _))).mp hmem)
  | remove target =>
    obtain ⟨rfl, hmem⟩ := hm
    exact ⟨rfl, (hs.members target (hrows _ (.head _))).mpr hmem⟩

theorem fits_write (hw : w.Fits r) (hs : Spares rows r r') (hrows : ∀ x ∈ w.held, x ∉ rows) :
    w.Fits r' := by
  cases w with
  | update _ name =>
    have hinfo := hs.info (hrows _ (.head _))
    exact ⟨hw.1, fun hname => (congrArg RoomInfo.name hinfo).trans (hw.2 hname)⟩
  | archive =>
    have hinfo := hs.info (hrows _ (.head _))
    exact fun heq => hw ((congrArg RoomInfo.archived hinfo).symm.trans heq)
  | member m => exact fits_member (m := m) hw hs fun x hx => hrows x (.tail _ hx)
  | _ => trivial

theorem spares_fits (ht : t.Fits d r) (hs : Spares rows r r') (hrows : ∀ x ∈ t.held, x ∉ rows) :
    t.Fits d r' := by
  cases t with
  | memberships | update => exact ht
  | logMember m => exact fits_member (m := m) ht hs hrows
  | confirm _ w | commit w => exact fits_write (w := w) ht hs hrows
  | _ => trivial

theorem fits_finish {reader : Option Ulid} (hw : w.Fits r) :
    (RoomCallTask.finish reader w).Fits d r := by
  cases reader <;> exact hw

/-- Who may change a room is not in a direct message, so there is a name. -/
theorem kind_of_update {room : RoomInfo} {members : Finset Ulid}
    (h : (RoomCall.updateRoom actor name isDefault).refusal d room members = none) :
    d.kind ≠ .roomDM := by
  intro hkind
  unfold RoomCall.refusal at h
  split at h
  · have hno : ∀ archived, canUpdateRoom ⟨d.kind, room.isDefault, archived⟩
        (d.actor members actor) = false := by
      intro archived
      simp [canUpdateRoom, hkind]
    simp only [RoomCall.check, map_eq_none_iff, authorize, RoomStanding.authzRoom, hno] at h
    simp at h
  · cases h

theorem Turn.fits (hturn : Turn d s t t') (hr : s.room = some r)
    (hnamed : r.name.isSome ↔ d.kind ≠ .roomDM) (huptodate : t.UpToDate r) (ht : t.Fits d r) :
    t'.Fits d r := by
  have hmembers : s.members = r.members := by
    unfold members
    rw [hr]
    rfl
  cases hturn with
  | access hroom =>
    obtain rfl := some.inj (hr.symm.trans hroom)
    exact hnamed
  | @begins c room hrefusal =>
    cases c with
    | updateRoom _ name isDefault =>
      have hname : room.name.isSome := ht.mpr (kind_of_update hrefusal)
      cases name with
      | none =>
        cases isDefault with
        | none => trivial
        | some => exact hname
      | some => exact hname
    | _ => trivial
  | update => exact ⟨ht, huptodate⟩
  | archiveFlag hroom hne =>
    obtain rfl := some.inj (hr.symm.trans hroom)
    exact hne
  | insert _ hroom hnot =>
    obtain rfl := some.inj (hr.symm.trans hroom)
    exact hnot
  | known => exact fits_finish (w := .nothing) trivial
  | found _ hmem => exact ⟨rfl, hmembers ▸ hmem⟩
  | lost hnot => exact absurd (hmembers ▸ huptodate) hnot
  | @logMember m reader hfree => exact fits_finish (w := .member m) ht
  | confirm => exact ht
  | _ => trivial

/-- **The rows that calls write are as they were read.** -/
def SafeLog (s : RoomDesk) : RoomDeskAction → Prop
  | .step i => ∀ t ∈ s.tasks[i]?, ∀ r ∈ s.room, t.UpToDate r
  | _ => True

instance (s : RoomDesk) (a : RoomDeskAction) : Decidable (SafeLog s a) :=
  match a with
  | .step i => inferInstanceAs (Decidable (∀ t ∈ s.tasks[i]?, ∀ r ∈ s.room, t.UpToDate r))
  | .start _ | .fail _ | .post => isTrue trivial

/-! ## What a commit logs -/

/-- **A step is logged**: it changes nothing that the log is about, or it changes something, and
one line says so. -/
def Logs (r r' : RoomState) : Prop :=
  (r'.facts = r.facts ∧ r'.log = r.log ∧ r.lastMessageSeq ≤ r'.lastMessageSeq) ∨
    ∃ line, r'.log = r.log ++ [line] ∧ line.seq = r.lastMessageSeq + 1 ∧
      r'.lastMessageSeq = r.lastMessageSeq + 1 ∧ r.facts.apply line = some r'.facts ∧
      r'.facts ≠ r.facts

theorem logs_update {previousName : Option String} (hprevious : previousName.isSome)
    (hname : name.isSome → r.name = previousName) :
    Logs r (r.renamed actor name isDefault previousName) := by
  obtain ⟨oldName, rfl⟩ := isSome_iff_exists.mp hprevious
  cases name with
  | none => exact .inl ⟨rfl, rfl, le_rfl⟩
  | some newName =>
    have hold : r.name = some oldName := hname rfl
    by_cases hne : newName ≠ oldName
    · have hrenamed : r.renamed actor (some newName) isDefault (some oldName) =
          (r.updateRoom (some newName) isDefault).logged actor (.renamed oldName newName) :=
        if_pos hne
      have hsome : some newName ≠ r.name := by
        rw [hold]
        exact fun heq => hne (some.inj heq)
      rw [hrenamed]
      exact .inr ⟨_, rfl, rfl, rfl, if_pos ⟨hold.symm, hsome⟩,
        fun heq => hsome (congrArg RoomFacts.name heq)⟩
    · have hrenamed : r.renamed actor (some newName) isDefault (some oldName) =
          r.updateRoom (some newName) isDefault := if_neg hne
      rw [hrenamed, not_not.mp hne]
      refine .inl ⟨?_, rfl, le_rfl⟩
      show RoomFacts.mk (some oldName) r.archived r.members = RoomFacts.mk r.name _ _
      rw [hold]

theorem logs_archive {flag : Bool} (hne : r.archived ≠ flag) :
    Logs r (r.setArchived actor flag) := by
  refine .inr ⟨_, rfl, rfl, rfl, ?_, fun heq => hne (congrArg RoomFacts.archived heq).symm⟩
  cases flag with
  | true => exact if_neg hne
  | false => exact if_pos (Bool.eq_true_of_not_eq_false hne)

theorem logs_member (hm : m.Fits r) : Logs r (r.performMember m) := by
  cases m with
  | join target =>
    have hnot : target ∉ r.members := hm
    refine .inr ⟨_, rfl, rfl, rfl, if_neg hnot, fun heq => hnot ?_⟩
    have hmembers : insert target r.members = r.members := congrArg RoomFacts.members heq
    exact hmembers ▸ Finset.mem_insert_self _ _
  | remove target self =>
    obtain ⟨rfl, hmem⟩ := hm
    refine .inr ⟨_, rfl, rfl, rfl, ?_, fun heq => ?_⟩
    · cases self <;> exact if_pos hmem
    · have hmembers : r.members.erase target = r.members := congrArg RoomFacts.members heq
      exact Finset.notMem_erase target r.members (hmembers.symm ▸ hmem)

/-- **A transaction that goes by what holds is logged.** -/
theorem logs_perform (hw : w.Fits r) (hperform : r.perform w = some r') : Logs r r' := by
  cases w with
  | nothing =>
    cases hperform
    exact .inl ⟨rfl, rfl, le_rfl⟩
  | update =>
    cases hperform
    exact logs_update hw.1 hw.2
  | archive =>
    cases hperform
    exact logs_archive hw
  | delete => exact absurd hperform (by simp [RoomState.perform])
  | member =>
    cases hperform
    exact logs_member hw

/-- The log is in the order of its numbers, which are given out. -/
def Ordered (r : RoomState) : Prop :=
  r.log.Pairwise (fun x y => x.seq < y.seq) ∧ ∀ line ∈ r.log, line.seq ≤ r.lastMessageSeq

theorem Logs.ordered (h : Logs r r') (hr : Ordered r) : Ordered r' := by
  obtain ⟨hpairwise, hle⟩ := hr
  rcases h with ⟨-, hlog, hseq⟩ | ⟨line, hlog, hline, hseq, -, -⟩
  · unfold Ordered
    rw [hlog]
    exact ⟨hpairwise, fun x hx => (hle x hx).trans hseq⟩
  · unfold Ordered
    rw [hlog, hseq]
    refine ⟨pairwise_append.mpr ⟨hpairwise, pairwise_singleton _ _, ?_⟩, fun x hx => ?_⟩
    · intro x hx y hy
      rw [mem_singleton.mp hy, hline]
      exact Nat.lt_succ_of_le (hle x hx)
    · rcases mem_append.mp hx with hx | hx
      · exact (hle x hx).trans (Nat.le_succ _)
      · rw [mem_singleton.mp hx, hline]

theorem Logs.replay {f : RoomFacts} (h : Logs r r')
    (hr : replay RoomFacts.apply f r.log = some r.facts) :
    replay RoomFacts.apply f r'.log = some r'.facts := by
  rcases h with ⟨hfacts, hlog, -⟩ | ⟨line, hlog, -, -, happly, -⟩
  · rw [hfacts, hlog]
    exact hr
  · rw [hlog]
    exact replay_concat hr happly

theorem name_renamed (r : RoomState) (actor : Ulid) (name : Option String)
    (isDefault : Option Bool) (previousName : Option String) :
    (r.renamed actor name isDefault previousName).name = (name <|> r.name) := by
  unfold RoomState.renamed
  split
  · split <;> rfl
  · rfl

/-- A room that has a name keeps having one, and a direct message has none. -/
theorem isSome_perform (hw : w.Fits r) (hperform : r.perform w = some r') :
    r'.name.isSome = r.name.isSome := by
  cases w with
  | update _ name =>
    cases hperform
    rw [name_renamed]
    cases name with
    | none => rfl
    | some =>
      rw [hw.2 rfl, hw.1]
      rfl
  | delete => exact absurd hperform (by simp [RoomState.perform])
  | member m =>
    cases hperform
    cases m <;> rfl
  | _ =>
    cases hperform
    rfl

/-- **The log says what the room is.** -/
structure Faithful (d : RoomStanding) (r₀ : RoomState) (s : RoomDesk) : Prop where
  apart : HeldRows.Apart RoomCallTask.held s.tasks
  fits : ∀ r, s.room = some r → ∀ t ∈ s.tasks, t.Fits d r
  named : ∀ r, s.room = some r → (r.name.isSome ↔ d.kind ≠ .roomDM)
  ordered : ∀ r, s.room = some r → Ordered r
  replays : ∀ r, s.room = some r → replay RoomFacts.apply r₀.facts r.log = some r.facts

theorem Faithful.logs (hs : s.Faithful d r₀) (hact : act d s a = some s') (hr' : s'.room = some r') :
    ∃ r, s.room = some r ∧ Logs r r' ∧ r'.name.isSome = r.name.isSome := by
  obtain ⟨r, hr, rfl | ⟨n, hn, rfl⟩ | ⟨i, w, -, hi, hperform⟩⟩ := room_of_act hact hr'
  · exact ⟨r', hr, .inl ⟨rfl, rfl, le_rfl⟩, rfl⟩
  · exact ⟨r, hr, .inl ⟨rfl, rfl, hn⟩, rfl⟩
  · have hw : w.Fits r := hs.fits r hr _ (mem_of_getElem? hi)
    exact ⟨r, hr, logs_perform hw hperform, isSome_perform hw hperform⟩

theorem Faithful.act (hs : s.Faithful d r₀) (hsafe : SafeLog s a) (hact : act d s a = some s') :
    s'.Faithful d r₀ where
  apart := apart_act hs.apart hact
  fits := by
    refine holds_act (P := fun r t => t.Fits d r) spares_fits (fun _ _ => trivial)
      (fun _ _ => trivial) (fun i r t t' ha hi hr ht hturn => ?_) hs.apart hs.fits hact
    rw [ha] at hsafe
    exact hturn.fits hr (hs.named r hr) (hsafe t hi r hr) ht
  named r' hr' := by
    obtain ⟨r, hr, -, hname⟩ := hs.logs hact hr'
    rw [hname]
    exact hs.named r hr
  ordered r' hr' := by
    obtain ⟨r, hr, hlogs, -⟩ := hs.logs hact hr'
    exact hlogs.ordered (hs.ordered r hr)
  replays r' hr' := by
    obtain ⟨r, hr, hlogs, -⟩ := hs.logs hact hr'
    exact hlogs.replay (hs.replays r hr)

theorem faithful_of_init (hinit : (system d).init s) (hr₀ : s.room = some r₀) :
    s.Faithful d r₀ := by
  obtain ⟨r, rfl, hcreated⟩ := hinit
  obtain rfl := some.inj hr₀
  refine ⟨HeldRows.apart_nil, fun _ _ t ht => absurd ht not_mem_nil, fun r' hr' => ?_,
    fun r' hr' => ?_, fun r' hr' => ?_⟩
  · obtain rfl := some.inj hr'
    exact hcreated.name
  · obtain rfl := some.inj hr'
    unfold Ordered
    rcases hcreated.log with hlog | ⟨creator, hlog⟩
    · rw [hlog]
      exact ⟨List.Pairwise.nil, fun x hx => absurd hx not_mem_nil⟩
    · rw [hlog]
      refine ⟨pairwise_singleton _ _, fun x hx => ?_⟩
      rw [mem_singleton.mp hx]
  · obtain rfl := some.inj hr'
    rcases hcreated.log with hlog | ⟨creator, hlog⟩
    · rw [hlog]
      rfl
    · rw [hlog]
      rfl

/-- **The log of a room is its history**, where calls write the rows that they have read. In
the order of the numbers, the lines about a user alternate between joining and leaving, and the
last says whether the user is a member; each new name replaces the one before, up to the name
of the room; the lines about archiving alternate, up to the flag of the room; the log as a
whole can be replayed; and a transaction writes a line if it changes one of these, and no line
if it does not. -/
theorem log_is_history (hinit : (system d).init s₀) (hrun : (system d).Steps SafeLog s₀ s)
    (hr₀ : s₀.room = some r₀) (hr : s.room = some r) :
    r.log.Pairwise (fun x y => x.seq < y.seq) ∧
    (∀ user, Alternates (decide (user ∈ r₀.members)) (r.log.filterMap (memberLine user))
      (decide (user ∈ r.members)) ∧
      ((r.log.filterMap (memberLine user)).getLast? = some true ↔
        user ∈ r.members ∧ r.log.filterMap (memberLine user) ≠ [])) ∧
    Chains r₀.name (r.log.filterMap renameLine) r.name ∧
    Alternates false (r.log.filterMap archiveLine) r.archived ∧
    replay RoomFacts.apply r₀.facts r.log = some r.facts ∧
    ∀ a s' r', (system d).step s a = some s' → s'.room = some r' → Logs r r' := by
  have hs : s.Faithful d r₀ := hrun.preserves (I := fun v => v.Faithful d r₀)
    (fun _ _ _ hv hsafe hstep => hv.act hsafe hstep) (faithful_of_init hinit hr₀)
  have hreplay := hs.replays r hr
  have harchived : r₀.archived = false := by
    obtain ⟨r₁, rfl, hcreated⟩ := hinit
    cases hr₀
    exact hcreated.archived
  refine ⟨(hs.ordered r hr).1, fun user => ?_, chains_names hreplay, ?_, hreplay,
    fun a s' r' hstep hr' => ?_⟩
  · have halternates := alternates_members user hreplay
    refine ⟨halternates, ?_⟩
    rw [halternates.getLast?_eq_true_iff, decide_eq_true_iff]
    rfl
  · have halternates := alternates_archived hreplay
    rw [show r₀.facts.archived = false from harchived] at halternates
    exact halternates
  · have hact : act d s a = some s' := hstep
    obtain ⟨r₁, hr₁, hlogs, -⟩ := hs.logs hact hr'
    obtain rfl := Option.some.inj (hr.symm.trans hr₁)
    exact hlogs

/-- The member leaves and comes back, and the room is renamed and archived. -/
theorem log_is_history_two :
    ∃ s r, (system twoPeople).Steps SafeLog ⟨some newRoom, []⟩ s ∧ s.room = some r ∧
      r.log.filterMap (memberLine 2) = [false, true] ∧ r.name = some "b" ∧ r.archived = true ∧
      replay RoomFacts.apply newRoom.facts r.log = some r.facts := by
  have hrun : ((system twoPeople).runBy SafeLog ⟨some newRoom, []⟩
      [.start (.removeRoomMember 1 2), .start (.updateRoom 1 (some "b") none),
        .start (.joinRoom 2), .start (.setRoomArchived 1 true), .step 0, .step 0, .step 1, .step 1,
        .step 2, .step 2, .step 0, .step 0, .step 0, .step 2, .step 1, .step 1, .step 1, .step 2,
        .step 2, .step 2, .step 3, .step 3, .step 3, .step 3, .step 3, .step 3]).any (fun s =>
      s.room.any fun r => decide (r.log.filterMap (memberLine 2) = [false, true] ∧
        r.name = some "b" ∧ r.archived = true)) = true := by
    decide +kernel
  obtain ⟨s, hs, htest⟩ := (Option.any_eq_true _ _).mp hrun
  obtain ⟨r, hr, htest⟩ := (Option.any_eq_true _ _).mp htest
  obtain ⟨hlines, hname, harchived⟩ := of_decide_eq_true htest
  have hsteps := TransitionSystem.steps_of_runBy hs
  obtain ⟨-, -, -, -, hreplay, -⟩ := log_is_history init_newRoom hsteps rfl hr
  exact ⟨s, r, hsteps, hr, hlines, hname, harchived, hreplay⟩

/-- **A member has left twice.** While the member leaves, an administrator removes the member,
and only the first of both finds the row. -/
theorem left_twice : ∃ s r, (system twoPeople).Reachable s ∧ s.room = some r ∧
      r.log.filterMap (memberLine 2) = [false, false] := by
  have hrun : ((system twoPeople).run ⟨some newRoom, []⟩
      [.start (.removeRoomMember 2 2), .start (.removeRoomMember 1 2), .step 0, .step 0, .step 1,
        .step 1, .step 0, .step 0, .step 0, .step 1, .step 1, .step 1]).any (fun s =>
      s.room.any fun r => decide (r.log.filterMap (memberLine 2) = [false, false])) = true := by
    decide +kernel
  obtain ⟨s, hreach, htest⟩ := TransitionSystem.exists_of_run hrun init_newRoom
  obtain ⟨r, hr, hlines⟩ := (Option.any_eq_true _ _).mp htest
  exact ⟨s, r, hreach, hr, of_decide_eq_true hlines⟩

end RoomDesk

end Hibari
