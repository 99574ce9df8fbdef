import Hibari.HuddleAccess

/-!
# Losing access ends the participation

Every participation is placed (`Placed`): a join has just written it and holds the membership, or
somebody is about to take it away, or it is in a huddle that goes on, in a room of which its user
is a member – or was, and then who deleted the membership is still after it. Every step keeps
this (`Sound.act`), and where no call is in progress, nobody is about to do anything
(`access_of_runs`).

It rests on what the transactions hold. A membership cannot be deleted while a join holds it, so
that what the join has written is there for the deletion to find. A huddle cannot be inserted
while the room is being deleted, so that the huddle that the deletion has locked is the only one
that goes on.
-/

namespace Hibari

open List Option

namespace AccessTask

variable {t : AccessTask} {e : HuddleJoin × Ulid}

/-- The join whose membership the call holds. -/
def joins : AccessTask → Option HuddleJoin
  | call (.joinFind join _) | call (.joinWait join _ _) | call (.joinStart join _)
  | call (.joinLocked join _ _) | call (.joinJoined join _ _ _) => some join
  | _ => none

/-- The huddle that a join has found and waits for. -/
def finds : AccessTask → Option (HuddleJoin × Ulid)
  | call (.joinWait join _ huddle) => some (join, huddle)
  | _ => none

/-- The huddle that a join has found and locked. -/
def enters : AccessTask → Option (HuddleJoin × Ulid)
  | call (.joinLocked join huddle false) | call (.joinJoined join huddle false _) =>
    some (join, huddle)
  | _ => none

/-- The huddle that a join has inserted, and its room. -/
def creates : AccessTask → Option (Ulid × Ulid)
  | call t => t.creates
  | _ => none

/-- The room that is about to be deleted, and the huddle that was found in it. -/
def deletes : AccessTask → Option (Ulid × Option Ulid)
  | deleteRows room active => some (room, active)
  | _ => none

/-- The call has just written a participation, or will take it away. -/
def Covers (h p u : Ulid) : AccessTask → Prop
  | call (.joinJoined join huddle _ _) => huddle = h ∧ join.participant = p ∧ join.user = u
  | call (.undo huddle participant _) => huddle = h ∧ participant = p
  | call (.clearing huddle _) | clearRoom huddle => huddle = h
  | _ => False

/-- The call is after a participation in a huddle of a room. -/
def Pursues (room h p u : Ulid) : AccessTask → Prop
  | call (.currentRead user affected) => user = u ∧ room ∈ affected
  | call (.currentLookup huddle participant affected) =>
    huddle = h ∧ participant = p ∧ room ∈ affected
  | call (.removing huddle participant) => huddle = h ∧ participant = p
  | _ => False

/-- A call that holds nothing, and that nobody relies on. -/
structure Idle (t : AccessTask) : Prop where
  holds : t.holds = []
  joins : t.joins = none
  finds : t.finds = none
  enters : t.enters = none
  creates : t.creates = none
  deletes : t.deletes = none
  fresh : t.fresh = []

theorem Idle.of (h : (t.holds, t.joins, t.finds, t.enters, t.creates, t.deletes,
    t.fresh) = ([], none, none, none, none, none, [])) : t.Idle := by
  simp only [Prod.mk.injEq] at h
  exact ⟨h.1, h.2.1, h.2.2.1, h.2.2.2.1, h.2.2.2.2.1, h.2.2.2.2.2.1, h.2.2.2.2.2.2⟩

theorem holds_of_creates {e : Ulid × Ulid} (h : e ∈ t.creates) :
    .huddle e.1 ∈ t.holds ∧ .room e.2 ∈ t.holds := by
  unfold creates HuddleTask.creates at h
  split at h
  · split at h
    all_goals
      first
      | obtain rfl := some.inj h
        simp [holds, HuddleTask.heldRows]
      | cases h
  · cases h

theorem holds_of_enters (h : e ∈ t.enters) :
    .roomMember e.1.room e.1.user ∈ t.holds ∧ .huddle e.2 ∈ t.holds := by
  unfold enters at h
  split at h
  all_goals
    first
    | obtain rfl := some.inj h
      simp [holds, HuddleTask.heldRows]
    | cases h

theorem holds_of_finds (h : e ∈ t.finds) : .roomMember e.1.room e.1.user ∈ t.holds := by
  unfold finds at h
  split at h
  · cases h
    simp [holds, HuddleTask.heldRows]
  · cases h

theorem holds_of_deletes {e : Ulid × Option Ulid} (h : e ∈ t.deletes) : .room e.1 ∈ t.holds := by
  unfold deletes at h
  split at h
  · cases h
    simp [holds]
  · cases h

theorem holds_of_joins {join : HuddleJoin} (h : join ∈ t.joins) :
    .roomMember join.room join.user ∈ t.holds := by
  unfold joins at h
  split at h
  all_goals
    first
    | obtain rfl := some.inj h
      simp [holds, HuddleTask.heldRows]
    | cases h

end AccessTask

namespace HuddleAccess

open AccessTask HuddleRedis

variable {s s' : HuddleAccess} {i : ℕ} {t t' u : AccessTask} {h p : Ulid}
  {store : HuddleRedis} {join : HuddleJoin} {evicted : Option Ulid} {row : HuddleRow}
    {choice room user : Ulid}

/-! ## The invariant -/

/-- **A participation has its place.** -/
def Placed (s : HuddleAccess) (h p u : Ulid) : Prop :=
  (∃ t ∈ s.tasks, t.Covers h p u) ∨ ∃ room, s.rows.lookup h = some ⟨room, false⟩ ∧
      ((room, u) ∈ s.members ∨ ∃ t ∈ s.tasks, t.Pursues room h p u)

/-- **What a call relies on**, as long as it holds what it holds. -/
structure Right (s : HuddleAccess) (t : AccessTask) : Prop where
  member : ∀ join ∈ t.joins, (join.room, join.user) ∈ s.members
  found : ∀ e ∈ t.finds, ∃ ended, s.rows.lookup e.2 = some ⟨e.1.room, ended⟩
  old : ∀ e ∈ t.enters, s.rows.lookup e.2 = some ⟨e.1.room, false⟩
  new : ∀ e ∈ t.creates, e.1 ∉ s.rows ∧ ∀ h, s.rows.lookup h ≠ some ⟨e.2, false⟩
  only : ∀ e ∈ t.deletes, ∀ h, s.rows.lookup h = some ⟨e.1, false⟩ → e.2 = some h
  fresh : ∀ p ∈ t.fresh, p ∈ s.issued ∧ ∀ h, (s.store.members h).lookup p = none

/-- **What every step keeps.** -/
structure Sound (s : HuddleAccess) : Prop where
  linked : s.store.Linked
  marked : s.store.Marked
  apart : HeldRows.Apart holds s.tasks
  numbers : HeldRows.Apart AccessTask.fresh s.tasks
  issued : ∀ h p r, (s.store.members h).lookup p = some r → p ∈ s.issued
  housed : ∀ m ∈ s.members, m.1 ∈ s.rooms
  rowed : ∀ h row, s.rows.lookup h = some row → row.room ∈ s.rooms
  single : ∀ h h' room, s.rows.lookup h = some ⟨room, false⟩ →
    s.rows.lookup h' = some ⟨room, false⟩ → h = h'
  right : ∀ t ∈ s.tasks, s.Right t
  placed : ∀ h p r, (s.store.members h).lookup p = some r → s.Placed h p r.userId

theorem Right.of_idle (h : t.Idle) : s.Right t where
  member := fun join hjoin => nomatch h.joins.symm.trans hjoin
  found := fun e he => nomatch h.finds.symm.trans he
  old := fun e he => nomatch h.enters.symm.trans he
  new := fun e he => nomatch h.creates.symm.trans he
  only := fun e he => nomatch h.deletes.symm.trans he
  fresh := fun p hp => by
    rw [h.fresh] at hp
    cases hp

/-- **A step of one call**, by what it keeps of what the others rely on. -/
theorem Sound.turn (hs : s.Sound) (ht : s.tasks[i]? = some t) (hset : s'.tasks = s.tasks.set i t')
    (hholds : ∀ r ∈ t'.holds, r ∈ t.holds ∨ s.Free r) (hfresh : ∀ p ∈ t'.fresh, p ∈ t.fresh)
    (hothers : ∀ j u, i ≠ j → s.tasks[j]? = some u → s'.Right u) (hright : s'.Right t')
    (hlinked : s'.store.Linked) (hmarked : s'.store.Marked)
    (hissued : ∀ h p r, (s'.store.members h).lookup p = some r → p ∈ s'.issued)
    (hhoused : ∀ m ∈ s'.members, m.1 ∈ s'.rooms)
    (hrowed : ∀ h row, s'.rows.lookup h = some row → row.room ∈ s'.rooms)
    (hsingle : ∀ h h' room, s'.rows.lookup h = some ⟨room, false⟩ →
      s'.rows.lookup h' = some ⟨room, false⟩ → h = h')
    (hplaced : ∀ h p r, (s'.store.members h).lookup p = some r → s'.Placed h p r.userId) :
    s'.Sound where
  linked := hlinked
  marked := hmarked
  apart := by
    rw [hset]
    exact hs.apart.set ht hholds
  numbers := by
    rw [hset]
    exact hs.numbers.set ht fun p hp => .inl (hfresh p hp)
  issued := hissued
  housed := hhoused
  rowed := hrowed
  single := hsingle
  right := fun u hu => by
    rw [hset] at hu
    rcases Threads.exists_of_mem_set ht hu with ⟨j, hij, hj⟩ | rfl
    · exact hothers j u hij hj
    · exact hright
  placed := hplaced

variable (ht : s.tasks[i]? = some t)
include ht

/-- Who was to do something still is, apart from the call that steps. -/
theorem exists_set {Q : AccessTask → Prop} (t' : AccessTask)
    (h : ∃ u ∈ s.tasks, Q u) : (∃ u ∈ s.tasks.set i t', Q u) ∨ Q t := by
  obtain ⟨u, hu, hq⟩ := h
  obtain ⟨j, hj⟩ := mem_iff_getElem?.mp hu
  by_cases hij : i = j
  · subst hij
    obtain rfl := some.inj (ht.symm.trans hj)
    exact .inr hq
  · refine .inl ⟨u, mem_of_getElem? (i := j) ?_, hq⟩
    rw [Threads.getElem?_set ht, if_neg hij, hj]

theorem mem_set_self (t' : AccessTask) : t' ∈ s.tasks.set i t' := by
  refine mem_of_getElem? (i := i) ?_
  rw [Threads.getElem?_set ht, if_pos rfl]

omit ht

/-- **A participation keeps its place** where rows and memberships stay: who covered it or was
after it is another call, or goes on doing so. -/
theorem Placed.set {u : Ulid} (hplaced : s.Placed h p u) (ht : s.tasks[i]? = some t)
    (hset : s'.tasks = s.tasks.set i t') (hrows : s'.rows = s.rows)
      (hmembers : s'.members = s.members)
    (hcovers : t.Covers h p u → s'.Placed h p u)
    (hpursues : ∀ room, s.rows.lookup h = some ⟨room, false⟩ → t.Pursues room h p u →
      t'.Pursues room h p u) : s'.Placed h p u := by
  rcases hplaced with hcovered | ⟨room, hrow, hmember | hpursued⟩
  · rcases exists_set ht t' hcovered with hothers | hown
    · exact .inl (hset ▸ hothers)
    · exact hcovers hown
  · exact .inr ⟨room, hrows ▸ hrow, .inl (hmembers ▸ hmember)⟩
  · refine .inr ⟨room, hrows ▸ hrow, .inr ?_⟩
    rw [hset]
    rcases exists_set ht t' hpursued with hothers | hown
    · exact hothers
    · exact ⟨t', mem_set_self ht t', hpursues room hrow hown⟩

/-- What is relied on stays where participations only go. -/
theorem Right.leaving (hright : s.Right u) (hleaving : Leaving s.store store)
    (hrows : s'.rows = s.rows) (hmembers : s'.members = s.members) (hissued : s'.issued = s.issued)
    (hstore : s'.store = store) : s'.Right u where
  member := fun join hjoin => hmembers ▸ hright.member join hjoin
  found := fun e he => hrows ▸ hright.found e he
  old := fun e he => hrows ▸ hright.old e he
  new := fun e he => hrows ▸ hright.new e he
  only := fun e he => hrows ▸ hright.only e he
  fresh := fun p hp => by
    obtain ⟨hp', hnone⟩ := hright.fresh p hp
    refine ⟨hissued ▸ hp', fun h => ?_⟩
    rw [hstore, eq_none_iff_forall_not_mem]
    intro r hr
    obtain ⟨r₀, hr₀, -⟩ := hleaving.fewer h p r hr
    cases (hnone h).symm.trans hr₀

variable (hs : s.Sound)
include hs

include ht

/-- **A step that leaves the database as it is.** -/
theorem Sound.goes
    (hleaving : Leaving s.store store) (hholds : ∀ r ∈ t'.holds, r ∈ t.holds ∨ s.Free r)
    (hfresh : ∀ p ∈ t'.fresh, p ∈ t.fresh)
    (hright : Right { s with store := store, tasks := s.tasks.set i t' } t')
    (hcovers : ∀ h p r, (store.members h).lookup p = some r → t.Covers h p r.userId →
      Placed { s with store := store, tasks := s.tasks.set i t' } h p r.userId)
    (hpursues : ∀ h p r room, (store.members h).lookup p = some r →
      s.rows.lookup h = some ⟨room, false⟩ → t.Pursues room h p r.userId →
      t'.Pursues room h p r.userId) :
    Sound { s with store := store, tasks := s.tasks.set i t' } := by
  refine hs.turn ht rfl hholds hfresh (fun j u _ hj => ?_) hright hleaving.linked hleaving.marked
    (fun h p r hr => ?_) hs.housed hs.rowed hs.single fun h p r hr => ?_
  · exact (hs.right u (mem_of_getElem? hj)).leaving hleaving rfl rfl rfl rfl
  · obtain ⟨r₀, hr₀, -⟩ := hleaving.fewer h p r hr
    exact hs.issued h p r₀ hr₀
  · obtain ⟨r₀, hr₀, huser⟩ := hleaving.fewer h p r hr
    exact Placed.set (huser ▸ hs.placed h p r₀ hr₀) ht rfl rfl rfl (hcovers h p r hr)
      fun room hrow hpursued => hpursues h p r room hr hrow hpursued

/-- **A step to where nothing is held.** -/
theorem Sound.idles (hidle : t'.Idle) (hleaving : Leaving s.store store)
    (hcovers : ∀ h p r, (store.members h).lookup p = some r → t.Covers h p r.userId →
      Placed { s with store := store, tasks := s.tasks.set i t' } h p r.userId)
    (hpursues : ∀ h p r room, (store.members h).lookup p = some r →
      s.rows.lookup h = some ⟨room, false⟩ → t.Pursues room h p r.userId →
      t'.Pursues room h p r.userId) :
    Sound { s with store := store, tasks := s.tasks.set i t' } := by
  refine hs.goes ht hleaving ?_ ?_ (Right.of_idle hidle) hcovers hpursues
  · rw [hidle.holds]
    exact nofun
  · rw [hidle.fresh]
    exact nofun

theorem Sound.moves (hidle : t'.Idle)
    (hcovers : ∀ h p u, ¬ t.Covers h p u) (hpursues : ∀ room h p u, ¬ t.Pursues room h p u) :
    Sound { s with tasks := s.tasks.set i t' } :=
  hs.idles ht hidle (Leaving.refl hs.linked hs.marked)
    (fun h p r _ hcovered => absurd hcovered (hcovers h p r.userId))
    fun h p r room _ _ hpursued => absurd hpursued (hpursues room h p r.userId)

/-! ## Steps in the huddle service -/

omit ht

omit hs

theorem lookup_removeScript (hlinked : s.store.Linked) (h p : Ulid) :
    (((s.store.removeScript h p).1.members h).lookup p) = none := by
  show ((s.store.remove h p false).1.members h).lookup p = none
  rw [lookup_remove hlinked, if_pos ⟨rfl, rfl⟩]

theorem leaving_removeScript (hlinked : s.store.Linked) (hmarked : s.store.Marked) (h p : Ulid) :
    Leaving s.store (s.store.removeScript h p).1 :=
  leaving_remove hlinked hmarked h p

theorem lookup_clear (h p : Ulid) : ((s.store.clear h).1.members h).lookup p = none := by
  unfold HuddleRedis.clear
  simp only [Function.update_self, AList.lookup_empty]

include hs

include ht

/-- **A huddle is cleared.** -/
theorem Sound.clears (hidle : t'.Idle) (hcovers : ∀ h' p u, t.Covers h' p u → h' = h)
    (hpursues : ∀ room h p u, ¬ t.Pursues room h p u) :
    Sound { s with store := (s.store.clear h).1, tasks := s.tasks.set i t' } := by
  refine hs.idles ht hidle (leaving_clear hs.linked hs.marked h) (fun h' p r hr hcovered => ?_)
    fun h' p r room _ _ hpursued => absurd hpursued (hpursues room h' p r.userId)
  obtain rfl := hcovers h' p r.userId hcovered
  cases (lookup_clear h' p).symm.trans hr

/-- **A participation is removed.** -/
theorem Sound.removes (hidle : t'.Idle) (hcovers : ∀ h' p' u, t.Covers h' p' u → h' = h ∧ p' = p)
    (hpursues : ∀ room h' p' u, t.Pursues room h' p' u → h' = h ∧ p' = p) :
    Sound { s with store := (s.store.removeScript h p).1, tasks := s.tasks.set i t' } := by
  have hgone := lookup_removeScript (s := s) hs.linked h p
  refine hs.idles ht hidle (leaving_removeScript hs.linked hs.marked h p)
    (fun h' p' r hr hcovered => ?_) fun h' p' r room hr _ hpursued => ?_
  · obtain ⟨rfl, rfl⟩ := hcovers h' p' r.userId hcovered
    cases hgone.symm.trans hr
  · obtain ⟨rfl, rfl⟩ := hpursues room h' p' r.userId hpursued
    cases hgone.symm.trans hr

omit ht

/-- **A join goes on** with its membership, and maybe with a huddle. -/
theorem Sound.joins {t t' : HuddleTask}
    (ht : s.tasks[i]? = some (call t)) (hjoin : (call t).joins = some join)
    (hjoin' : (call t').joins = some join)
    (hheld : ∀ r ∈ t'.heldRows, r ∈ t.heldRows ∨ s.Free r)
    (hfresh : (call t').fresh = (call t).fresh)
    (hfound : ∀ e ∈ (call t').finds, ∃ ended, s.rows.lookup e.2 = some ⟨e.1.room, ended⟩)
    (hold : ∀ e ∈ (call t').enters, s.rows.lookup e.2 = some ⟨e.1.room, false⟩)
    (hnew : ∀ e ∈ t'.creates, e.1 ∉ s.rows ∧ ∀ h, s.rows.lookup h ≠ some ⟨e.2, false⟩)
    (hcovers : ∀ h p u, ¬ (call t).Covers h p u)
    (hpursues : ∀ room h p u, ¬ (call t).Pursues room h p u) :
    Sound { s with tasks := s.tasks.set i (call t') } := by
  have hmine := hs.right (call t) (mem_of_getElem? ht)
  refine hs.goes ht (Leaving.refl hs.linked hs.marked) hheld (fun p hp => hfresh ▸ hp) ?_
    (fun h p r _ hcovered => absurd hcovered (hcovers h p r.userId))
    fun h p r room _ _ hpursued => absurd hpursued (hpursues room h p r.userId)
  refine ⟨fun j hj => ?_, hfound, hold, hnew, fun e he => absurd he (by simp [deletes]),
    fun p hp => ?_⟩
  · rw [hjoin'] at hj
    cases hj
    exact hmine.member join hjoin
  · exact hmine.fresh p (hfresh ▸ hp)

/-- **A join writes its participation.** -/
theorem Sound.enters {created : Bool} (ht : s.tasks[i]? = some (call (.joinLocked join h created)))
    (henters : HuddleRedis.Enters s.store s'.store (join.participation h) join.status)
    (hset : s'.tasks = s.tasks.set i (call (.joinJoined join h created evicted)))
    (hrows : s'.rows = s.rows) (hrooms : s'.rooms = s.rooms) (hmembers : s'.members = s.members)
    (hissued : s'.issued = s.issued) : s'.Sound := by
  have hmine := hs.right _ (mem_of_getElem? ht)
  have hnumber : join.participant ∈ (call (.joinLocked join h created)).fresh :=
    .head _
  refine hs.turn ht hset (fun r hr => .inl hr) nofun
    (fun j u hij hj => ?_) ?_ henters.linked henters.marked (fun k p r hr => ?_) ?_ ?_ ?_
    fun k p r hr => ?_
  · have hright := hs.right u (mem_of_getElem? hj)
    refine ⟨fun join hjoin => hmembers ▸ hright.member join hjoin,
      fun e he => hrows ▸ hright.found e he, fun e he => hrows ▸ hright.old e he, fun e he =>
        hrows ▸ hright.new e he,
      fun e he => hrows ▸ hright.only e he, fun p hp => ?_⟩
    obtain ⟨hp', hnone⟩ := hright.fresh p hp
    refine ⟨hissued ▸ hp', fun k => eq_none_iff_forall_not_mem.mpr fun r hr => ?_⟩
    -- the number that was written is that of this join alone
    rcases (henters.lookup k p r).mp hr with ⟨-, hpj, -⟩ | ⟨hbefore, -⟩
    · have hp'' : p = join.participant := hpj
      exact hs.numbers.notMem ht hj hij hnumber (hp'' ▸ hp)
    · cases (hnone k).symm.trans hbefore
  · refine ⟨fun j hj => hmembers ▸ hmine.member j hj, nofun, fun e he => hrows ▸ hmine.old e ?_,
      fun e he => hrows ▸ hmine.new e ?_, fun e he => absurd he (by simp [deletes]),
      nofun⟩
    · cases created <;> exact he
    · cases created <;> exact he
  · rcases (henters.lookup k p r).mp hr with ⟨-, hpj, -⟩ | ⟨hbefore, -⟩
    · exact hissued ▸ hpj ▸ (hmine.fresh _ hnumber).1
    · exact hissued ▸ hs.issued k p r hbefore
  · rw [hmembers, hrooms]
    exact hs.housed
  · rw [hrows, hrooms]
    exact hs.rowed
  · rw [hrows]
    exact hs.single
  · rcases (henters.lookup k p r).mp hr with ⟨rfl, rfl, rfl⟩ | ⟨hbefore, -⟩
    · exact .inl ⟨AccessTask.call (.joinJoined join _ created evicted),
        hset ▸ mem_set_self ht _, rfl, rfl, rfl⟩
    · refine (hs.placed k p r hbefore).set ht hset hrows hmembers (fun hcovered => ?_)
        fun room _ hpursued => ?_
      · exact absurd hcovered id
      · exact absurd hpursued id

/-! ## Transactions that commit -/

/-- **A join commits** the huddle that it found. -/
theorem Sound.commits
    (ht : s.tasks[i]? = some (call (.joinJoined join h false evicted))) (hidle : t'.Idle) :
    Sound { s with tasks := s.tasks.set i t' } := by
  have hmine := hs.right _ (mem_of_getElem? ht)
  refine hs.idles ht hidle (Leaving.refl hs.linked hs.marked) (fun k p r _ hcovered => ?_)
    fun k p r room _ _ hpursued => absurd hpursued id
  obtain ⟨rfl, -, huser⟩ := hcovered
  exact .inr ⟨join.room, hmine.old (join, h) rfl, .inl (huser ▸ hmine.member join rfl)⟩

/-- **A join commits** the huddle that it started. -/
theorem Sound.starts
    (ht : s.tasks[i]? = some (call (.joinJoined join h true evicted))) (hidle : t'.Idle) :
    Sound { s with rows := s.rows.insert h ⟨join.room, false⟩, tasks := s.tasks.set i t' } := by
  have hmine := hs.right _ (mem_of_getElem? ht)
  have hmember : (join.room, join.user) ∈ s.members := hmine.member join rfl
  obtain ⟨hnot, hnone⟩ := hmine.new (h, join.room) rfl
  have hheld : ∀ r ∈ [AccessRow.huddle h, .room join.room],
      r ∈ (call (.joinJoined join h true evicted)).holds :=
    fun r hr => .tail _ hr
  have hlookup : ∀ k row, (s.rows.insert h ⟨join.room, false⟩).lookup k = some row →
      (k = h ∧ row = ⟨join.room, false⟩) ∨ s.rows.lookup k = some row := by
    intro k row hrow
    by_cases hk : k = h
    · rw [hk, AList.lookup_insert] at hrow
      exact .inl ⟨hk, (some.inj hrow).symm⟩
    · rw [AList.lookup_insert_ne hk] at hrow
      exact .inr hrow
  have hkept : ∀ k row, s.rows.lookup k = some row →
      (s.rows.insert h ⟨join.room, false⟩).lookup k = some row := by
    intro k row hrow
    have hk : k ≠ h := by
      rintro rfl
      exact hnot (AList.lookup_isSome.mp (by rw [hrow]; rfl))
    rwa [AList.lookup_insert_ne hk]
  refine hs.turn ht rfl ?_ ?_ (fun j u hij hj => ?_) (Right.of_idle hidle) hs.linked hs.marked
    hs.issued hs.housed (fun k row hrow => ?_) (fun k k' room hk hk' => ?_) fun k p r hr => ?_
  · rw [hidle.holds]
    exact nofun
  · rw [hidle.fresh]
    exact nofun
  · have hright := hs.right u (mem_of_getElem? hj)
    have hapart : ∀ r ∈ [AccessRow.huddle h, .room join.room], r ∉ u.holds :=
      fun r hr => hs.apart.notMem ht hj hij (hheld r hr)
    refine ⟨hright.member, fun e he => ?_, fun e he => hkept e.2 _ (hright.old e he),
      fun e he => ?_, fun e he k hk => ?_, hright.fresh⟩
    · obtain ⟨ended, hrow⟩ := hright.found e he
      exact ⟨ended, hkept e.2 _ hrow⟩
    · obtain ⟨hnot', hnone'⟩ := hright.new e he
      obtain ⟨hhuddle, hroom⟩ := holds_of_creates he
      refine ⟨fun hin => ?_, fun k hk => ?_⟩
      · rcases (AList.mem_insert _).mp hin with heq | hin
        · exact hapart _ (.head _) (heq ▸ hhuddle)
        · exact hnot' hin
      · rcases hlookup k _ hk with ⟨-, hrow⟩ | hold
        · have heq : e.2 = join.room := congrArg HuddleRow.room hrow
          exact hapart _ (.tail _ (.head _)) (heq ▸ hroom)
        · exact hnone' k hold
    · rcases hlookup k _ hk with ⟨-, hrow⟩ | hold
      · have heq : e.1 = join.room := congrArg HuddleRow.room hrow
        exact absurd (heq ▸ holds_of_deletes he) (hapart _ (.tail _ (.head _)))
      · exact hright.only e he k hold
  · rcases hlookup k row hrow with ⟨-, rfl⟩ | hold
    · exact hs.housed _ hmember
    · exact hs.rowed k row hold
  · rcases hlookup k _ hk with ⟨rfl, hrow⟩ | hold
    · rcases hlookup k' _ hk' with ⟨rfl, -⟩ | hold'
      · rfl
      · rw [show room = join.room from congrArg HuddleRow.room hrow] at hold'
        exact absurd hold' (hnone k')
    · rcases hlookup k' _ hk' with ⟨rfl, hrow⟩ | hold'
      · rw [show room = join.room from congrArg HuddleRow.room hrow] at hold
        exact absurd hold (hnone k)
      · exact hs.single k k' room hold hold'
  · rcases hs.placed k p r hr with hcovered | ⟨room, hrow, hmember' | hpursued⟩
    · rcases exists_set ht t' hcovered with hothers | ⟨rfl, -, huser⟩
      · exact .inl hothers
      · exact .inr ⟨join.room, AList.lookup_insert _, .inl (huser ▸ hmember)⟩
    · exact .inr ⟨room, hkept k _ hrow, .inl hmember'⟩
    · refine .inr ⟨room, hkept k _ hrow, .inr ?_⟩
      exact (exists_set ht t' hpursued).resolve_right id

/-- **A huddle is ended.** -/
theorem Sound.ends {rooms : List Ulid}
    (ht : s.tasks[i]? = some (call (.ending h rooms))) (hrow : s.rows.lookup h = some row) :
    Sound { s with rows := s.rows.insert h { row with ended := true },
                   tasks := s.tasks.set i (call (.clearing h rooms)) } := by
  have hlookup : ∀ k room, (s.rows.insert h { row with ended := true }).lookup k
      = some ⟨room, false⟩ → s.rows.lookup k = some ⟨room, false⟩ := by
    intro k room hk
    by_cases hkh : k = h
    · rw [hkh, AList.lookup_insert] at hk
      cases congrArg HuddleRow.ended (some.inj hk)
    · rwa [AList.lookup_insert_ne hkh] at hk
  have hidle : (call (.clearing h rooms)).Idle := (.of rfl)
  refine hs.turn ht rfl nofun
    nofun (fun j u hij hj => ?_) (Right.of_idle hidle) hs.linked
    hs.marked hs.issued hs.housed (fun k row' hrow' => ?_) (fun k k' room hk hk' => ?_)
    fun k p r hr => ?_
  · have hright := hs.right u (mem_of_getElem? hj)
    have hapart : AccessRow.huddle h ∉ u.holds :=
      hs.apart.notMem ht hj hij (.head _)
    refine ⟨hright.member, fun e he => ?_, fun e he => ?_, fun e he => ?_,
      fun e he k hk => hright.only e he k (hlookup k _ hk), hright.fresh⟩
    · obtain ⟨ended, hfound⟩ := hright.found e he
      show ∃ ended, (s.rows.insert h _).lookup e.2 = _
      by_cases heq : e.2 = h
      · rw [heq] at hfound ⊢
        obtain rfl := some.inj (hrow.symm.trans hfound)
        exact ⟨true, AList.lookup_insert _⟩
      · rw [AList.lookup_insert_ne heq]
        exact ⟨ended, hfound⟩
    · have hne : e.2 ≠ h := fun heq => hapart (heq ▸ (holds_of_enters he).2)
      show (s.rows.insert h _).lookup e.2 = _
      rw [AList.lookup_insert_ne hne]
      exact hright.old e he
    · obtain ⟨hnot, hnone⟩ := hright.new e he
      refine ⟨fun hin => ?_, fun k hk => hnone k (hlookup k _ hk)⟩
      rcases (AList.mem_insert _).mp hin with heq | hin
      · exact hapart (heq ▸ (holds_of_creates he).1)
      · exact hnot hin
  · by_cases hkh : k = h
    · have hended : (s.rows.insert h { row with ended := true }).lookup k = some row' := hrow'
      rw [hkh, AList.lookup_insert] at hended
      rw [← some.inj hended]
      exact hs.rowed h row hrow
    · have hkept : (s.rows.insert h { row with ended := true }).lookup k = some row' := hrow'
      rw [AList.lookup_insert_ne hkh] at hkept
      exact hs.rowed k row' hkept
  · exact hs.single k k' room (hlookup k room hk) (hlookup k' room hk')
  · by_cases hkh : k = h
    · exact .inl ⟨call (.clearing h rooms), mem_set_self ht _, hkh.symm⟩
    · have hkept : (s.rows.insert h { row with ended := true }).lookup k = s.rows.lookup k :=
        AList.lookup_insert_ne hkh
      rcases hs.placed k p r hr with hcovered | ⟨room, hlive, hmember | hpursued⟩
      · exact .inl ((exists_set ht _ hcovered).resolve_right id)
      · exact .inr ⟨room, hkept.trans hlive, .inl hmember⟩
      · refine .inr ⟨room, hkept.trans hlive, .inr ?_⟩
        exact (exists_set ht _ hpursued).resolve_right id

include ht

/-- **Memberships are deleted** that nobody holds, and who has deleted them is after what their
user is in. -/
theorem Sound.loses {members : Finset (Ulid × Ulid)} {affected : List Ulid} (hsub : ∀ m ∈ members, m ∈ s.members)
    (hlost : ∀ room u, (room, u) ∈ s.members → (room, u) ∈ members ∨
      s.Free (.roomMember room u) ∧ u = user ∧ room ∈ affected)
    (hcovers : ∀ h p u, ¬ t.Covers h p u) (hpursues : ∀ room h p u, ¬ t.Pursues room h p u) :
    Sound { s with members := members,
                   tasks := s.tasks.set i (call (.currentRead user affected)) } := by
  refine hs.turn ht rfl nofun nofun (fun j u _ hj => ?_)
    (Right.of_idle (.of rfl)) hs.linked hs.marked hs.issued
    (fun m hm => hs.housed m (hsub m hm)) hs.rowed hs.single fun h p r hr => ?_
  · have hin := mem_of_getElem? hj
    have hright := hs.right u hin
    refine ⟨fun join hjoin => ?_, hright.found, hright.old, hright.new, hright.only, hright.fresh⟩
    rcases hlost _ _ (hright.member join hjoin) with hkept | ⟨hfree, -⟩
    · exact hkept
    · exact absurd (holds_of_joins hjoin) (hfree u hin)
  · rcases hs.placed h p r hr with hcovered | ⟨room, hrow, hmember | hpursued⟩
    · exact .inl ((exists_set ht _ hcovered).resolve_right (hcovers h p r.userId))
    · rcases hlost room r.userId hmember with hkept | ⟨-, huser, hroom⟩
      · exact .inr ⟨room, hrow, .inl hkept⟩
      · exact .inr ⟨room, hrow, .inr ⟨_, mem_set_self ht _, huser.symm, hroom⟩⟩
    · refine .inr ⟨room, hrow, .inr ?_⟩
      exact (exists_set ht _ hpursued).resolve_right (hpursues room h p r.userId)

omit ht

omit hs

theorem lookup_foldl_erase (ks : List Ulid) (rows : AList (fun _ : Ulid => HuddleRow)) (k : Ulid) :
    (ks.foldl (fun rows huddle => rows.erase huddle) rows).lookup k
      = if k ∈ ks then none else rows.lookup k := by
  induction ks generalizing rows with
  | nil => simp
  | cons k' _ ih =>
    rw [foldl_cons, ih]
    by_cases hk : k = k'
    · subst hk
      simp [AList.lookup_erase]
    · simp [hk, AList.lookup_erase_ne hk]

theorem mem_huddlesOf :
    h ∈ s.huddlesOf room ↔ ∃ row, s.rows.lookup h = some row ∧ row.room = room := by
  simp only [huddlesOf, List.mem_map, mem_filter, decide_eq_true_eq]
  constructor
  · rintro ⟨e, ⟨he, hroom⟩, rfl⟩
    exact ⟨e.2, AList.mem_lookup_iff.mpr he, hroom⟩
  · rintro ⟨row, hrow, hroom⟩
    exact ⟨⟨h, row⟩, ⟨AList.mem_lookup_iff.mp hrow, hroom⟩, rfl⟩

/-- What is left of the rows of huddles is what is of other rooms. -/
theorem lookup_rowsWithout :
    (s.rowsWithout room).lookup h = some row ↔ s.rows.lookup h = some row ∧ row.room ≠ room := by
  rw [rowsWithout, lookup_foldl_erase]
  split
  · next hin =>
    obtain ⟨row', hrow', hroom⟩ := mem_huddlesOf.mp hin
    refine ⟨fun hnone => absurd hnone (by simp), fun ⟨hrow, hne⟩ => ?_⟩
    obtain rfl := some_inj.mp (hrow'.symm.trans hrow)
    exact absurd hroom hne
  · next hnot =>
    exact ⟨fun hrow => ⟨hrow, fun hroom => hnot (mem_huddlesOf.mpr ⟨row, hrow, hroom⟩)⟩, And.left⟩

include hs

/-- **A room is deleted**, and what was in its huddle is about to be cleared. -/
theorem Sound.deletes {active : Option Ulid}
    (ht : s.tasks[i]? = some (deleteRows room active)) (hdeletable : s.Deletable room active) :
    Sound { s with
      rooms := s.rooms.erase room
      members := s.members.filter fun m => m.1 ≠ room
      rows := s.rowsWithout room
      tasks := s.tasks.set i (afterDeletion active) } := by
  have hmine := hs.right _ (mem_of_getElem? ht)
  have hidle : (afterDeletion active).Idle := by
    cases active <;> exact (.of rfl)
  have hrooms : ∀ r, r ≠ room → r ∈ s.rooms → r ∈ s.rooms.erase room :=
    fun r hne hr => AList.mem_erase.mpr ⟨hne, hr⟩
  refine hs.turn ht rfl ?_ ?_ (fun j u _ hj => ?_) (Right.of_idle hidle) hs.linked hs.marked
    hs.issued (fun m hm => ?_) (fun k row hrow => ?_) (fun k k' room' hk hk' => ?_)
    fun k p r hr => ?_
  · rw [hidle.holds]
    exact nofun
  · rw [hidle.fresh]
    exact nofun
  · have hin := mem_of_getElem? hj
    have hright := hs.right u hin
    refine ⟨fun join hjoin => ?_, fun e he => ?_, fun e he => ?_, fun e he => ?_,
      fun e he k hk => ?_, hright.fresh⟩
    · refine Finset.mem_filter.mpr ⟨hright.member join hjoin, fun heq => ?_⟩
      exact (hdeletable u hin _ (holds_of_joins hjoin)).1 (congrArg some heq)
    · obtain ⟨ended, hrow⟩ := hright.found e he
      refine ⟨ended, lookup_rowsWithout.mpr ⟨hrow, fun heq => ?_⟩⟩
      exact (hdeletable u hin _ (holds_of_finds he)).1 (congrArg some heq)
    · refine lookup_rowsWithout.mpr ⟨hright.old e he, fun heq => ?_⟩
      exact (hdeletable u hin _ (holds_of_enters he).1).1 (congrArg some heq)
    · obtain ⟨hnot, hnone⟩ := hright.new e he
      refine ⟨fun hmem => hnot ?_, fun k hk => hnone k (lookup_rowsWithout.mp hk).1⟩
      obtain ⟨row, hrow⟩ := isSome_iff_exists.mp (AList.lookup_isSome.mpr hmem)
      exact AList.lookup_isSome.mp (by rw [(lookup_rowsWithout.mp hrow).1]; rfl)
    · exact hright.only e he k (lookup_rowsWithout.mp hk).1
  · obtain ⟨hm, hne⟩ := Finset.mem_filter.mp hm
    exact hrooms m.1 hne (hs.housed m hm)
  · obtain ⟨hrow, hne⟩ := lookup_rowsWithout.mp hrow
    exact hrooms row.room hne (hs.rowed k row hrow)
  · exact hs.single k k' room' (lookup_rowsWithout.mp hk).1 (lookup_rowsWithout.mp hk').1
  · rcases hs.placed k p r hr with hcovered | ⟨room', hrow, hplace⟩
    · exact .inl ((exists_set ht _ hcovered).resolve_right id)
    · by_cases hroom : room' = room
      · -- the huddle that goes on is the one that the deletion has found
        have hactive : active = some k := hmine.only (room, active) rfl k (hroom ▸ hrow)
        subst hactive
        exact .inl ⟨clearRoom k, mem_set_self ht _, rfl⟩
      · refine .inr ⟨room', lookup_rowsWithout.mpr ⟨hrow, hroom⟩, ?_⟩
        rcases hplace with hmember | hpursued
        · exact .inl (Finset.mem_filter.mpr ⟨hmember, hroom⟩)
        · exact .inr ((exists_set ht _ hpursued).resolve_right id)

/-- **A member is added.** -/
theorem Sound.adds (hroom : room ∈ s.rooms) :
    Sound { s with members := insert (room, user) s.members } where
  linked := hs.linked
  marked := hs.marked
  apart := hs.apart
  numbers := hs.numbers
  issued := hs.issued
  housed := fun m hm => by
    rcases Finset.mem_insert.mp hm with rfl | hm
    · exact hroom
    · exact hs.housed m hm
  rowed := hs.rowed
  single := hs.single
  right := fun t ht => by
    have hright := hs.right t ht
    exact ⟨fun join hjoin => Finset.mem_insert_of_mem (hright.member join hjoin), hright.found,
      hright.old, hright.new, hright.only, hright.fresh⟩
  placed := fun h p r hr => by
    rcases hs.placed h p r hr with hcovered | ⟨room', hrow, hmember | hpursued⟩
    · exact .inl hcovered
    · exact .inr ⟨room', hrow, .inl (Finset.mem_insert_of_mem hmember)⟩
    · exact .inr ⟨room', hrow, .inr hpursued⟩

/-! ## Calls that begin -/

omit hs

theorem holds_of_begins (h : s.Begins t) : t.holds = [] ∧ t.joins = none ∧ t.finds = none ∧
    t.enters = none ∧ t.creates = none ∧ t.deletes = none := by
  unfold Begins at h
  split at h
  all_goals
    first
    | exact ⟨rfl, rfl, rfl, rfl, rfl, rfl⟩
    | exact absurd h id

/-- The number of a join that begins is new. -/
theorem fresh_of_begins (h : s.Begins t) : ∀ p ∈ t.fresh, p ∉ s.issued := by
  unfold Begins at h
  split at h
  · intro p hp
    rw [mem_singleton.mp hp]
    exact h.2
  all_goals
    first
    | exact fun p hp => absurd hp not_mem_nil
    | exact absurd h id

theorem Sound.begins (hs : s.Sound) (hbegins : s.Begins t) :
    Sound { s with tasks := s.tasks ++ [t], issued := t.fresh ++ s.issued } := by
  obtain ⟨hholds, hjoins, hfinds, henters, hcreates, hdeletes⟩ := holds_of_begins hbegins
  have hnew := fresh_of_begins hbegins
  refine { linked := hs.linked
           marked := hs.marked
           apart := hs.apart.concat hholds
           numbers := hs.numbers.concat_of_free fun p hp u hu hpu =>
             hnew p hp ((hs.right u hu).fresh p hpu).1
           issued := fun h p r hr => mem_append_right _ (hs.issued h p r hr)
           housed := hs.housed
           rowed := hs.rowed
           single := hs.single
           right := fun u hu => ?_
           placed := fun h p r hr => ?_ }
  · rcases mem_append.mp hu with hu | hu
    · have hright := hs.right u hu
      exact ⟨hright.member, hright.found, hright.old, hright.new, hright.only, fun p hp =>
        ⟨mem_append_right _ (hright.fresh p hp).1, (hright.fresh p hp).2⟩⟩
    · rw [mem_singleton.mp hu]
      refine ⟨fun join hjoin => absurd (hjoins.symm.trans hjoin) (by simp),
        fun e he => absurd (hfinds.symm.trans he) (by simp),
        fun e he => absurd (henters.symm.trans he) (by simp),
        fun e he => absurd (hcreates.symm.trans he) (by simp),
        fun e he => absurd (hdeletes.symm.trans he) (by simp), fun p hp => ?_⟩
      refine ⟨mem_append_left _ hp, fun h => eq_none_iff_forall_not_mem.mpr ?_⟩
      exact fun r hr => hnew p hp (hs.issued h p r hr)
  · rcases hs.placed h p r hr with ⟨u, hu, hcovers⟩ | ⟨room, hrow, hmember | ⟨u, hu, hpursues⟩⟩
    · exact .inl ⟨u, mem_append_left _ hu, hcovers⟩
    · exact .inr ⟨room, hrow, .inl hmember⟩
    · exact .inr ⟨room, hrow, .inr ⟨u, mem_append_left _ hu, hpursues⟩⟩

/-! ## All steps -/

theorem activeIn_eq_some (hactive : s.service.activeIn room = some h) :
    s.rows.lookup h = some ⟨room, false⟩ := by
  obtain ⟨⟨k, row⟩, he, rfl⟩ := map_eq_some_iff.mp hactive
  have hrow : s.rows.lookup k = some row := AList.mem_lookup_iff.mpr (mem_of_find?_eq_some he)
  have hlive := find?_some he
  simp only [Bool.and_eq_true, decide_eq_true_eq, Bool.not_eq_true'] at hlive
  obtain ⟨rfl, hended⟩ := hlive
  show s.rows.lookup k = some ⟨row.room, false⟩
  rw [hrow, ← hended]

include hs

/-- **One step of a call in the huddle service** keeps what every step keeps. -/
theorem Sound.calls {t t' : HuddleTask}
    {rows : AList (fun _ : Ulid => HuddleRow)} (ht : s.tasks[i]? = some (call t))
    (hasks : ∀ r ∈ s.asks choice t, s.Free r)
    (hnext : s.service.next choice t = some ((store, rows), t')) :
    Sound { s with store := store, rows := rows, tasks := s.tasks.set i (place t') } := by
  have hmine := hs.right _ (mem_of_getElem? ht)
  unfold HuddleService.next at hnext
  cases t with
  | joinFind =>
    simp only at hnext
    split at hnext
    · next huddle hactive =>
      cases hnext
      refine hs.joins ht rfl rfl (fun r hr => .inl hr) rfl (fun e he => ?_) nofun nofun
        (fun _ _ _ => id) fun _ _ _ _ => id
      cases he
      exact ⟨false, activeIn_eq_some hactive⟩
    · cases hnext
      exact hs.joins ht rfl rfl (fun r hr => .inl hr) rfl nofun nofun nofun (fun _ _ _ => id)
        fun _ _ _ _ => id
  | joinWait join _ huddle =>
    obtain ⟨ended, hfound⟩ := hmine.found (join, huddle) rfl
    simp only at hnext
    split_ifs at hnext
    split at hnext
    · next room hrow =>
      cases hnext
      obtain ⟨-, rfl⟩ := HuddleRow.mk.inj (some.inj (hfound.symm.trans hrow))
      refine hs.joins ht rfl rfl (fun r hr => ?_) rfl nofun (fun e he => ?_) nofun
        (fun _ _ _ => id) fun _ _ _ _ => id
      · rcases mem_cons.mp hr with hr | hr
        · exact .inl (mem_singleton.mpr hr)
        · exact .inr (hasks r hr)
      · cases he
        exact hfound
    · cases hnext
      exact hs.joins ht rfl rfl (fun r hr => .inl hr) rfl nofun nofun nofun (fun _ _ _ => id)
        fun _ _ _ _ => id
  | joinStart _ again =>
    simp only at hnext
    split at hnext
    · split at hnext
      · cases hnext
        by_cases hagain : again = true
        · rw [if_pos hagain]
          exact hs.moves ht (.of rfl) (fun _ _ _ => id) fun _ _ _ _ => id
        · rw [if_neg hagain]
          -- the transaction begins again, under the number that it has
          exact hs.goes ht (Leaving.refl hs.linked hs.marked) nofun (fun p hp => hp)
            ⟨nofun, nofun, nofun, nofun, nofun, hmine.fresh⟩ (fun _ _ _ _ => False.elim)
            fun _ _ _ _ _ _ => id
      · next hnone =>
        split_ifs at hnext with hunused
        cases hnext
        refine hs.joins ht rfl rfl (fun r hr => ?_) rfl nofun nofun (fun e he => ?_)
          (fun _ _ _ => id) fun _ _ _ _ => id
        · rcases mem_cons.mp hr with hr | hr
          · exact .inl (mem_singleton.mpr hr)
          · refine .inr (hasks r ?_)
            rcases mem_cons.mp hr with rfl | hr
            · exact .tail _ (.head _)
            · rw [mem_singleton.mp hr]
              exact .head _
        · cases he
          exact ⟨hunused.1, HuddleService.activeIn_eq_none hnone⟩
    · cases hnext
  | joinLocked join huddle =>
    simp only at hnext
    split at hnext
    · cases hnext
      exact hs.moves ht (.of rfl) (fun _ _ _ => id) fun _ _ _ _ => id
    · next result hjoined =>
      cases hnext
      have hroom : ¬ huddleParticipantLimit ≤ s.store.others huddle join.user := fun hfull => by
        have hrefused : s.store.join (join.participation huddle) (join.now + huddleHeartbeatTtl)
            huddleParticipantLimit join.status = (s.store, none) := join_refused hfull
        have hnone : (s.store.join (join.participation huddle) (join.now + huddleHeartbeatTtl)
          huddleParticipantLimit join.status).2 = none := by rw [hrefused]
        cases hnone.symm.trans hjoined
      have hfree := (hmine.fresh join.participant (.head _)).2 huddle
      refine hs.enters ht (enters_join hs.linked hs.marked (fun r hr => ?_) hroom) rfl rfl rfl rfl
        rfl
      cases hfree.symm.trans hr
  | joinJoined _ _ created =>
    cases hnext
    cases created with
    | false => exact hs.commits ht (.of rfl)
    | true => exact hs.starts ht (.of rfl)
  | undo =>
    cases hnext
    exact hs.removes ht (.of rfl)
      (fun _ _ _ hcovered => ⟨hcovered.1.symm, hcovered.2.symm⟩) fun _ _ _ _ => False.elim
  | lookups removed =>
    cases removed with
    | nil =>
      cases hnext
      exact hs.moves ht (.of rfl) (fun _ _ _ => id) fun _ _ _ _ => id
    | cons =>
      simp only at hnext
      split_ifs at hnext
      all_goals
        cases hnext
        exact hs.moves ht (.of rfl) (fun _ _ _ => id) fun _ _ _ _ => id
  | checking =>
    simp only at hnext
    split_ifs at hnext
    all_goals
      cases hnext
      exact hs.moves ht (.of rfl) (fun _ _ _ => id) fun _ _ _ _ => id
  | endLock =>
    simp only at hnext
    split_ifs at hnext
    split at hnext
    · cases hnext
      refine hs.goes ht (Leaving.refl hs.linked hs.marked) (fun r hr => .inr (hasks r hr)) nofun
        ⟨nofun, nofun, nofun, nofun, nofun, nofun⟩ (fun _ _ _ _ => False.elim)
        fun _ _ _ _ _ _ => id
    · cases hnext
      exact hs.moves ht (.of rfl) (fun _ _ _ => id) fun _ _ _ _ => id
  | endRead =>
    simp only at hnext
    split_ifs at hnext
    · cases hnext
      refine hs.goes ht (Leaving.refl hs.linked hs.marked) (fun r hr => .inl hr) nofun
        ⟨nofun, nofun, nofun, nofun, nofun, nofun⟩ (fun _ _ _ _ => False.elim)
        fun _ _ _ _ _ _ => id
    · cases hnext
      exact hs.moves ht (.of rfl) (fun _ _ _ => id) fun _ _ _ _ => id
  | ending =>
    simp only at hnext
    split at hnext
    · next row hrow =>
      cases hnext
      exact hs.ends ht hrow
    · cases hnext
  | clearing =>
    cases hnext
    exact hs.clears ht (.of rfl) (fun _ _ _ hcovered => hcovered.symm) fun _ _ _ _ => id
  | leaveRead user =>
    simp only at hnext
    split at hnext
    · next p _ =>
      cases hnext
      by_cases huser : p.userId = user
      · rw [if_pos huser]
        exact hs.moves ht (.of rfl) (fun _ _ _ => id) fun _ _ _ _ => id
      · rw [if_neg huser]
        exact hs.moves ht (.of rfl) (fun _ _ _ => id) fun _ _ _ _ => id
    · cases hnext
      exact hs.moves ht (.of rfl) (fun _ _ _ => id) fun _ _ _ _ => id
  | removing =>
    simp only at hnext
    split at hnext
    all_goals
      cases hnext
      exact hs.removes ht (.of rfl) (fun _ _ _ => False.elim)
        fun _ _ _ _ hpursued => ⟨hpursued.1.symm, hpursued.2.symm⟩
  | currentRead user =>
    simp only at hnext
    split at hnext
    · next huddle participant hkey =>
      cases hnext
      refine hs.idles ht (.of rfl) (Leaving.refl hs.linked hs.marked)
        (fun _ _ _ _ => False.elim) fun h p r room hr _ hpursued => ?_
      -- the key of the user names the participation
      have hmine' := (hs.linked.index user h p).mpr ⟨r, hr, hpursued.1.symm⟩
      cases hkey.symm.trans hmine'
      exact ⟨rfl, rfl, hpursued.2⟩
    · next hkey =>
      cases hnext
      refine hs.idles ht (.of rfl) (Leaving.refl hs.linked hs.marked)
        (fun _ _ _ _ => False.elim) fun h p r room hr _ hpursued => ?_
      have hmine' := (hs.linked.index user h p).mpr ⟨r, hr, hpursued.1.symm⟩
      cases hkey.symm.trans hmine'
  | currentLookup _ _ affected =>
    simp only at hnext
    split at hnext
    · next row hrow =>
      cases hnext
      by_cases hroom : row.room ∈ affected
      · rw [if_pos hroom]
        exact hs.idles ht (.of rfl) (Leaving.refl hs.linked hs.marked)
          (fun _ _ _ _ => False.elim) fun h p r room _ _ hpursued => ⟨hpursued.1, hpursued.2.1⟩
      · rw [if_neg hroom]
        refine hs.idles ht (.of rfl) (Leaving.refl hs.linked hs.marked)
          (fun _ _ _ _ => False.elim) fun h p r room _ hlive hpursued => ?_
        obtain ⟨rfl, -, haffected⟩ := hpursued
        obtain rfl := some.inj (hrow.symm.trans hlive)
        exact absurd haffected hroom
    · next hnone =>
      cases hnext
      refine hs.idles ht (.of rfl) (Leaving.refl hs.linked hs.marked)
        (fun _ _ _ _ => False.elim) fun h p r room hr hlive hpursued => ?_
      obtain ⟨rfl, -, -⟩ := hpursued
      cases hnone.symm.trans hlive
  | sweep now =>
    cases hnext
    exact hs.idles ht (.of rfl)
      (leaving_sweep hs.linked hs.marked now huddleSweepBatch) (fun _ _ _ _ => False.elim)
      fun _ _ _ _ _ _ => False.elim
  | done => cases hnext

include ht

/-- **One step of a call** keeps what every step keeps. -/
theorem Sound.next
    (hnext : s.next choice t = some (s', t')) : Sound { s' with tasks := s.tasks.set i t' } := by
  have hmine := hs.right _ (mem_of_getElem? ht)
  unfold HuddleAccess.next at hnext
  cases t with
  | joinMember =>
    simp only at hnext
    split_ifs at hnext with hfree hmember
    · cases hnext
      refine hs.goes ht (Leaving.refl hs.linked hs.marked) (fun r hr => .inr ?_) (fun p hp => hp)
        ⟨fun j hj => ?_, nofun, nofun, nofun, nofun, hmine.fresh⟩ (fun _ _ _ _ => False.elim)
        fun _ _ _ _ _ _ => id
      · rw [mem_singleton.mp hr]
        exact hfree
      · cases hj
        exact hmember
    · cases hnext
      exact hs.moves ht (.of rfl) (fun _ _ _ => id) fun _ _ _ _ => id
  | call =>
    simp only at hnext
    split_ifs at hnext with hasks
    obtain ⟨⟨⟨store, rows⟩, t''⟩, hcall, heq⟩ := map_eq_some_iff.mp hnext
    cases heq
    exact hs.calls ht hasks hcall
  | removeRoomMember room user =>
    simp only at hnext
    split_ifs at hnext with hfree
    cases hnext
    refine hs.loses ht (fun m hm => Finset.mem_of_mem_erase hm) (fun room' u hm => ?_)
      (fun _ _ _ => id) fun _ _ _ _ => id
    by_cases heq : (room', u) = (room, user)
    · cases heq
      exact .inr ⟨hfree.2.1, rfl, .head _⟩
    · exact .inl (Finset.mem_erase.mpr ⟨heq, hm⟩)
  | removeMember =>
    simp only at hnext
    split_ifs at hnext with hfree
    cases hnext
    refine hs.goes ht (Leaving.refl hs.linked hs.marked) (fun r hr => .inr ?_) nofun
      ⟨nofun, nofun, nofun, nofun, nofun, nofun⟩ (fun _ _ _ _ => False.elim)
      fun _ _ _ _ _ _ => id
    rw [mem_singleton.mp hr]
    exact hfree
  | removeMemberships workspace user =>
    simp only at hnext
    split_ifs at hnext with hfree
    cases hnext
    refine hs.loses ht (fun m hm => (Finset.mem_filter.mp hm).1) (fun room u hm => ?_)
      (fun _ _ _ => id) fun _ _ _ _ => id
    by_cases hlost : u = user ∧ room ∈ s.roomsOf workspace
    · obtain ⟨rfl, hroom⟩ := hlost
      exact .inr ⟨hfree room hroom, rfl, hroom⟩
    · exact .inl (Finset.mem_filter.mpr ⟨hm, hlost⟩)
  | deleteRoom =>
    simp only at hnext
    split_ifs at hnext with hfree
    cases hnext
    refine hs.goes ht (Leaving.refl hs.linked hs.marked) (fun r hr => .inr ?_) nofun
      ⟨nofun, nofun, nofun, nofun, nofun, nofun⟩ (fun _ _ _ _ => False.elim)
      fun _ _ _ _ _ _ => id
    rw [mem_singleton.mp hr]
    exact hfree.2
  | deleteHuddle room =>
    simp only at hnext
    split at hnext
    · next huddle hactive =>
      split_ifs at hnext with hfree
      cases hnext
      refine hs.goes ht (Leaving.refl hs.linked hs.marked) (fun r hr => ?_) nofun
        ⟨nofun, nofun, nofun, nofun, fun e he k hk => ?_, nofun⟩ (fun _ _ _ _ => False.elim)
        fun _ _ _ _ _ _ => id
      · rcases mem_cons.mp hr with rfl | hr
        · exact .inl (.head _)
        · rw [mem_singleton.mp hr]
          exact .inr hfree
      · cases he
        exact congrArg some (hs.single huddle k room (activeIn_eq_some hactive) hk)
    · next hnone =>
      cases hnext
      refine hs.goes ht (Leaving.refl hs.linked hs.marked) (fun r hr => .inl hr) nofun
        ⟨nofun, nofun, nofun, nofun, fun e he k hk => ?_, nofun⟩ (fun _ _ _ _ => False.elim)
        fun _ _ _ _ _ _ => id
      cases he
      exact absurd hk (HuddleService.activeIn_eq_none hnone k)
  | deleteRows =>
    simp only at hnext
    split_ifs at hnext with hdeletable
    cases hnext
    exact hs.deletes ht hdeletable
  | clearRoom =>
    cases hnext
    exact hs.clears ht (.of rfl) (fun _ _ _ hcovered => hcovered.symm) fun _ _ _ _ => id

/-- **A transaction that fails** keeps what every step keeps: the participation that a join has
written is still to be taken away. -/
theorem Sound.fails (hfailed : failed t = some t') :
    Sound { s with tasks := s.tasks.set i t' } := by
  unfold failed at hfailed
  split at hfailed
  · cases hfailed
    exact hs.moves ht (.of rfl) (fun _ _ _ => id) fun _ _ _ _ => id
  · cases hfailed
    exact hs.moves ht (.of rfl) (fun _ _ _ => id) fun _ _ _ _ => id
  · cases hfailed
    exact hs.moves ht (.of rfl) (fun _ _ _ => id) fun _ _ _ _ => id
  · next t _ _ _ =>
    obtain ⟨t'', hcall, rfl⟩ := map_eq_some_iff.mp hfailed
    unfold HuddleService.failed at hcall
    split at hcall
    iterate 4
      cases hcall
      exact hs.moves ht (.of rfl) (fun _ _ _ => id) fun _ _ _ _ => id
    · next join huddle created evicted _ _ _ =>
      cases hcall
      refine hs.idles ht (.of rfl) (Leaving.refl hs.linked hs.marked)
        (fun h p r _ hcovered => ?_) fun _ _ _ _ _ _ => False.elim
      exact .inl ⟨AccessTask.call (.undo huddle join.participant evicted), mem_set_self ht _,
        hcovered.1, hcovered.2.1⟩
    · cases hcall
  · cases hfailed
  · next hcall hclear =>
    cases hfailed
    cases t with
    | call t => exact absurd rfl (hcall t)
    | clearRoom huddle => exact absurd rfl (hclear huddle)
    | _ =>
      exact hs.moves ht (.of rfl) (fun _ _ _ => id) fun _ _ _ _ => id

omit ht

/-- **A step** keeps what every step keeps. -/
theorem Sound.act {a : HuddleAccessAction} (hact : s.act a = some s') :
    s'.Sound := by
  unfold HuddleAccess.act at hact
  cases a with
  | start =>
    simp only at hact
    split_ifs at hact with hbegins
    cases hact
    exact hs.begins hbegins
  | step =>
    simp only at hact
    split at hact
    · cases hact
    · next t ht =>
      obtain ⟨⟨s₁, t'⟩, hnext, rfl⟩ := map_eq_some_iff.mp hact
      exact hs.next ht hnext
  | fail =>
    simp only at hact
    split at hact
    · cases hact
    · next t ht =>
      obtain ⟨t', hfailed, rfl⟩ := map_eq_some_iff.mp hact
      exact hs.fails ht hfailed
  | addRoomMember =>
    simp only at hact
    split_ifs at hact with hadd
    cases hact
    exact hs.adds hadd.1

omit hs

theorem sound_start (hinit : system.init s) : s.Sound := by
  obtain ⟨hstore, hrows, -, htasks, hhoused⟩ := hinit
  have hnobody : ∀ h p, (s.store.members h).lookup p = none := by
    rw [hstore]
    exact fun h p => AList.lookup_empty p
  have hnone : ∀ h, s.rows.lookup h = none := by
    rw [hrows]
    exact fun h => AList.lookup_empty h
  exact {
    linked := hstore ▸ linked_empty
    marked := hstore ▸ marked_empty
    apart := htasks ▸ HeldRows.apart_nil
    numbers := htasks ▸ HeldRows.apart_nil
    issued := fun h p r hr => nomatch (hnobody h p).symm.trans hr
    housed := hhoused
    rowed := fun h row hrow => nomatch (hnone h).symm.trans hrow
    single := fun h h' room hrow => nomatch (hnone h).symm.trans hrow
    right := fun t ht => absurd (htasks ▸ ht) not_mem_nil
    placed := fun h p r hr => nomatch (hnobody h p).symm.trans hr }

theorem sound_of_reachable (h : system.Reachable s) : s.Sound :=
  h.invariant (I := Sound) (fun _ hinit => sound_start hinit) fun _ _ _ hs _ hstep => hs.act hstep

/-- **Losing access ends the participation.** When no call is in progress, every participation is
in a huddle that goes on, of a room that is there, and its user is a member of that room. -/
theorem access_of_runs (h : system.Reachable s) (hrest : s.AtRest) :
    ∀ huddle p r, (s.store.members huddle).lookup p = some r →
      ∃ room, s.rows.lookup huddle = some ⟨room, false⟩ ∧ room ∈ s.rooms ∧
        (room, r.userId) ∈ s.members := by
  intro huddle p r hr
  have hs := sound_of_reachable h
  rcases hs.placed huddle p r hr with ⟨t, ht, hcovers⟩ | ⟨room, hrow, hmember | ⟨t, ht, hpursues⟩⟩
  · rw [hrest t ht] at hcovers
    exact absurd hcovers id
  · exact ⟨room, hrow, hs.rowed huddle _ hrow, hmember⟩
  · rw [hrest t ht] at hpursues
    exact absurd hpursues id

/-- A room with two members. -/
def roomOfTwo : HuddleAccess :=
  ⟨.empty, ∅, AList.insert 10 5 ∅, {(10, 1), (10, 2)}, [], []⟩

/-- A call that is alone, for as many steps. -/
def steps (i : ℕ) (choice : Ulid) (n : ℕ) : List HuddleAccessAction :=
  List.replicate n (.step i choice)

/-- A member is removed while its join has written to Redis and not committed yet: the other one
stays in the huddle alone. -/
theorem access_after_removal : ∃ s : HuddleAccess,
    ((s.store.members 100).lookup 201).isSome = true ∧ (s.store.members 100).lookup 202 = none ∧
      ∀ huddle p r, (s.store.members huddle).lookup p = some r →
        ∃ room, s.rows.lookup huddle = some ⟨room, false⟩ ∧ room ∈ s.rooms ∧
          (room, r.userId) ∈ s.members := by
  have hrun : (system.run roomOfTwo
      ([.start (.joinMember HuddleService.firstJoin false)] ++ steps 0 100 7 ++
        [.start (.joinMember HuddleService.secondJoin false)] ++ steps 1 100 4 ++
        [.start (.removeRoomMember 10 2)] ++ steps 1 100 3 ++ steps 2 100 10)).any
      (fun s => decide (s.AtRest ∧ ((s.store.members 100).lookup 201).isSome = true ∧
        (s.store.members 100).lookup 202 = none)) = true := by decide +kernel
  obtain ⟨s, hs, htest⟩ := (Option.any_eq_true _ _).mp hrun
  have hinit : system.init roomOfTwo := by
    refine ⟨rfl, rfl, rfl, rfl, ?_⟩
    decide
  have hreach : system.Reachable s := TransitionSystem.reachableBy_of_run (P := fun _ _ => True)
    (M := system) hinit (fun _ _ _ => trivial) hs
  obtain ⟨hrest, hfirst, hsecond⟩ := of_decide_eq_true htest
  exact ⟨s, hfirst, hsecond, access_of_runs hreach hrest⟩

end HuddleAccess

end Hibari
