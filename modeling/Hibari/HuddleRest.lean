import Hibari.HuddleService

/-!
# When nothing is going on, a huddle that goes on has somebody in it

A huddle that goes on and has nobody in it is looked at by somebody: whoever took the
last participation away still has the huddle on a list. That is what every step keeps
(`Sound`), and when no call is in progress there is no list, so a huddle that goes on has
somebody in it, one that is over has nobody, and a room has one huddle at most that goes
on (`rest_of_runs`).

Two steps break it, and runs without them keep it. A join that fails takes its
participation back after its transaction gave the row's lock back, and then looks at
nothing: if it was the last one, since the others left in between and found it there,
the huddle goes on for ever with nobody in it (`empty_huddle_stays`). And a participation
that is taken away while the huddle's row is not committed is of a huddle that cannot be
found, so nobody looks at it when it is.
-/

namespace Hibari

open Function

/-! ## What scripts take away -/

namespace HuddleRedis

variable {s s' : HuddleRedis} {hs : List Ulid} {k : Ulid}

theorem count_eq_zero_iff (s : HuddleRedis) (h : Ulid) :
    s.count h = 0 ↔ ∀ p, (s.members h).lookup p = none := by
  unfold count
  rw [List.length_eq_zero_iff]
  refine ⟨fun hkeys p => ?_, fun hnone => List.eq_nil_iff_forall_not_mem.mpr fun p hp => ?_⟩
  · rw [AList.lookup_eq_none, AList.mem_keys, hkeys]
    exact List.not_mem_nil
  · exact AList.lookup_eq_none.mp (hnone p) (AList.mem_keys.mpr hp)

/-- **Participations only go, and only from the huddles of a list.** -/
structure Removes (s s' : HuddleRedis) (hs : List Ulid) : Prop where
  fewer : ∀ h p r, (s'.members h).lookup p = some r → (s.members h).lookup p = some r
  kept : ∀ h, h ∉ hs → s'.members h = s.members h

theorem Removes.empty (h : Removes s s' hs) (hk : s.count k = 0) : s'.count k = 0 := by
  rw [count_eq_zero_iff] at hk ⊢
  intro p
  rw [Option.eq_none_iff_forall_not_mem]
  intro r hr
  cases (hk p).symm.trans (h.fewer k p r hr)

theorem Removes.lost (h : Removes s s' hs) (hk : s'.count k = 0) : s.count k = 0 ∨ k ∈ hs := by
  by_cases hmem : k ∈ hs
  · exact .inr hmem
  · refine .inl ?_
    unfold count at hk ⊢
    rwa [← h.kept k hmem]

theorem Removes.refl (s : HuddleRedis) (hs : List Ulid) : Removes s s hs :=
  ⟨fun _ _ _ hr => hr, fun _ _ => rfl⟩

/-- What is left after a participation is removed, whatever else is done. -/
theorem members_remove (s : HuddleRedis) (h p : Ulid) (moving : Bool) :
    (s.remove h p moving).1.members = update s.members h ((s.members h).erase p) := by
  cases hr : (s.members h).lookup p with
  | none =>
    rw [remove_of_none hr]
    have hsame : (s.members h).erase p = s.members h := by
      refine AList.ext ?_
      exact List.kerase_of_notMem_keys (AList.lookup_eq_none.mp hr)
    rw [hsame]
    exact (update_eq_self h s.members).symm
  | some =>
    simp only [remove, hr]
    split_ifs
    · rfl
    · rw [statusOff_eq]
      rfl
    · rfl

/-- Removing a participation takes it from its huddle, and nothing if it is not
there. -/
theorem removes_remove (s : HuddleRedis) (h p : Ulid) (moving : Bool) :
    Removes s (s.remove h p moving).1 ((s.remove h p moving).2.toList.map fun _ => h) where
  fewer := fun k q r hr => by
    rw [members_remove] at hr
    by_cases hk : k = h
    · subst hk
      rw [update_self] at hr
      by_cases hq : q = p
      · rw [hq, AList.lookup_erase] at hr
        cases hr
      · rwa [AList.lookup_erase_ne hq] at hr
    · rwa [update_of_ne hk] at hr
  kept := fun k hk => by
    cases hr : (s.members h).lookup p with
    | none => rw [remove_of_none hr]
    | some =>
      rw [remove_snd, hr] at hk
      rw [members_remove, update_of_ne]
      rintro rfl
      exact hk (by simp)

/-- Participations say which huddle they are in. -/
def Housed (s : HuddleRedis) : Prop :=
  ∀ h p r, (s.members h).lookup p = some r → r.huddleId = h

theorem Housed.removes (h : s.Housed) (hremoves : Removes s s' hs) : s'.Housed :=
  fun k p r hr => h k p r (hremoves.fewer k p r hr)

/-- **A sweep** takes from the huddles of what it returns. -/
theorem removes_sweep (hhoused : s.Housed) (now max : ℕ) :
    Removes s (s.sweep now max).1 ((s.sweep now max).2.map fun e => e.1.huddleId) := by
  have hfold : ∀ (es : List (Ulid × Ulid)) (out : HuddleRedis × List (Participation × ℕ × ℕ)),
      Removes s out.1 (out.2.map fun e => e.1.huddleId) →
      Removes s (es.foldl sweepOne out).1 ((es.foldl sweepOne out).2.map fun e => e.1.huddleId) := by
    intro es
    induction es with
    | nil => exact fun out hout => hout
    | cons e _ ih =>
      intro out hout
      refine ih (sweepOne out e) ?_
      have hremove := removes_remove out.1 e.1 e.2 false
      have hsnd := remove_snd out.1 e.1 e.2 false
      unfold sweepOne
      split
      · next s' p heq =>
        rw [heq] at hremove hsnd
        have hhuddle : p.huddleId = e.1 := hhoused _ _ _ (hout.fewer _ _ _ hsnd.symm)
        refine ⟨fun h q r hr => hout.fewer h q r (hremove.fewer h q r hr), fun h hh => ?_⟩
        simp only [List.map_append, List.map_cons, List.map_nil, List.mem_append,
          List.mem_singleton, hhuddle, not_or] at hh
        rw [← hout.kept h hh.1]
        exact hremove.kept h (by simpa using hh.2)
      · next s' heq =>
        rw [heq] at hremove
        refine ⟨fun h q r hr => hout.fewer h q r (hremove.fewer h q r hr), fun h hh => ?_⟩
        exact (hremove.kept h (by simp)).trans (hout.kept h hh)
  exact hfold (s.expired now max) (s, []) (Removes.refl s [])

/-- **A join that is not refused** takes from the huddle of what it evicts, and then its
participation is there. -/
theorem join_accepted {p : Participation} {deadline limit : ℕ} {status : HuddleStatus}
    {result : HuddleJoined} (hhoused : s.Housed)
    (h : (s.join p deadline limit status).2 = some result) :
    ∃ t, Removes s t (result.evicted.toList.map Participation.huddleId) ∧
      ∀ k, (s.join p deadline limit status).1.members k
        = if k = p.huddleId then (t.members k).insert p.id p else t.members k := by
  unfold join at h ⊢
  by_cases hfull : limit ≤ s.others p.huddleId p.userId
  · rw [if_pos hfull] at h
    cases h
  · rw [if_neg hfull] at h ⊢
    have hevicted : (s.evict p.userId).2 = result.evicted := by
      rw [← Option.some.inj h]
    refine ⟨(s.evict p.userId).1, ?_, fun k => ?_⟩
    · rw [← hevicted]
      unfold evict
      split
      · exact Removes.refl s _
      · next h₀ p₀ _ =>
        refine ⟨(removes_remove s h₀ p₀ true).fewer, fun k hk => ?_⟩
        refine (removes_remove s h₀ p₀ true).kept k fun hin => hk ?_
        obtain ⟨r, hr, rfl⟩ := List.mem_map.mp hin
        refine List.mem_map.mpr ⟨r, hr, hhoused h₀ p₀ r ?_⟩
        rw [← remove_snd s h₀ p₀ true]
        exact Option.mem_toList.mp hr
    · have hleave : ∀ t : HuddleRedis, (t.leaveOther p.userId status.workspaceId).members
          = t.members := by
        intro t
        unfold leaveOther
        split
        · rfl
        · split
          · rw [statusOff_eq]
          · rfl
      show ((((s.evict p.userId).1.enter p deadline).leaveOther p.userId status.workspaceId).mark
        p.userId status).members k = _
      rw [mark_eq]
      show (((s.evict p.userId).1.enter p deadline).leaveOther p.userId
        status.workspaceId).members k = _
      rw [hleave]
      show update (s.evict p.userId).1.members p.huddleId _ k = _
      by_cases hk : k = p.huddleId
      · rw [hk, update_self, if_pos rfl]
      · rw [update_of_ne hk, if_neg hk]

/-- Clearing a huddle that nobody is in changes nobody's participation. -/
theorem members_clear (hempty : s.count h₀ = 0) (k : Ulid) :
    (s.clear h₀).1.members k = s.members k := by
  have hkeys : (s.members h₀).keys = [] := List.length_eq_zero_iff.mp hempty
  unfold clear
  rw [hkeys]
  show update s.members h₀ ∅ k = s.members k
  by_cases hk : k = h₀
  · subst hk
    rw [update_self]
    refine AList.ext ?_
    have hentries : (s.members k).entries.map Sigma.fst = [] := hkeys
    exact (List.map_eq_nil_iff.mp hentries).symm
  · rw [update_of_ne hk]

end HuddleRedis

namespace HuddleTask

variable {t : HuddleTask} {e : Ulid × Ulid}

/-- The room for which a call has inserted a huddle. -/
def startsIn (t : HuddleTask) : Option Ulid := t.creates.map Prod.snd

/-- The huddle that is about to be ended. -/
def ends : HuddleTask → Option Ulid
  | ending huddle _ => some huddle
  | _ => none

/-- The huddle that was ended and is about to be cleared. -/
def clears : HuddleTask → Option Ulid
  | clearing huddle _ => some huddle
  | _ => none

theorem holds_of_creates (h : t.creates = some e) : t.holds = some e.1 := by
  unfold creates at h
  split at h
  · exact congrArg some (congrArg Prod.fst (Option.some.inj h))
  · exact congrArg some (congrArg Prod.fst (Option.some.inj h))
  · cases h

theorem startsIn_of_creates (h : t.creates = some e) : t.startsIn = some e.2 := by
  rw [startsIn, h]
  rfl

theorem holds_of_ends {h : Ulid} (ht : t.ends = some h) : t.holds = some h ∧ t.creates = none := by
  unfold ends at ht
  split at ht
  · exact ⟨ht, rfl⟩
  · cases ht

end HuddleTask

/-! ## The invariant -/

namespace HuddleService

open HuddleTask HuddleRedis Threads

variable {s s' : HuddleService} {i : ℕ} {t t' : HuddleTask} {h : Ulid}
  {store : HuddleRedis} {p room : Ulid} {join : HuddleJoin} {evicted : Option Ulid}
    {rooms : List Ulid}

/-- A huddle goes on. -/
def Live (s : HuddleService) (h : Ulid) : Prop := ∃ room, s.rows.lookup h = some ⟨room, false⟩

instance (s : HuddleService) (h : Ulid) : Decidable (s.Live h) :=
  decidable_of_iff ((s.rows.lookup h).map HuddleRow.ended = some false) <| by
    refine Option.map_eq_some_iff.trans ⟨?_, ?_⟩
    · rintro ⟨⟨room, ended⟩, hrow, rfl⟩
      exact ⟨room, hrow⟩
    · rintro ⟨room, hrow⟩
      exact ⟨⟨room, false⟩, hrow, rfl⟩

/-- Some call will still look at a huddle. -/
def Due (s : HuddleService) (h : Ulid) : Prop := ∃ t ∈ s.tasks, t.due h

instance (s : HuddleService) (h : Ulid) : Decidable (s.Due h) := by
  unfold Due
  infer_instance

/-- **What every step keeps.** -/
structure Sound (s : HuddleService) : Prop where
  housed : s.store.Housed
  live : ∀ h, s.Live h → s.store.count h ≠ 0 ∨ s.Due h
  ended : ∀ h room, s.rows.lookup h = some ⟨room, true⟩ → s.store.count h = 0
  single : ∀ h h' room, s.rows.lookup h = some ⟨room, false⟩ →
    s.rows.lookup h' = some ⟨room, false⟩ → h = h'
  holder : Apart holds s.tasks
  held : ∀ t ∈ s.tasks, ∀ h, t.holds = some h → t.creates = none → s.Live h
  created : ∀ t ∈ s.tasks, ∀ e, t.creates = some e →
    e.1 ∉ s.rows ∧ ∀ h, s.rows.lookup h ≠ some ⟨e.2, false⟩
  starter : Apart startsIn s.tasks
  undone : ∀ t ∈ s.tasks, ∀ u ∈ s.tasks, ∀ e, u.creates = some e → t.undoes ≠ some e.1
  empty : ∀ t ∈ s.tasks, ∀ h, t.ends = some h → s.store.count h = 0
  cleared : ∀ t ∈ s.tasks, ∀ h, t.clears = some h → ∃ room, s.rows.lookup h = some ⟨room, true⟩

theorem sound_new : Sound new where
  housed := fun h p r hr => by
    have hnone : (HuddleRedis.empty.members h).lookup p = none := AList.lookup_empty p
    cases hnone.symm.trans hr
  live := fun h hlive => by
    obtain ⟨room, hrow⟩ := hlive
    cases (AList.lookup_empty h).symm.trans hrow
  ended := fun h room hrow => nomatch (AList.lookup_empty h).symm.trans hrow
  single := fun h _ room hrow => nomatch (AList.lookup_empty h).symm.trans hrow
  holder := Apart.nil
  held := nofun
  created := nofun
  starter := Apart.nil
  undone := nofun
  empty := nofun
  cleared := nofun

/-- Who is due, apart from the call that steps. -/
theorem due_set (ht : s.tasks[i]? = some t) (t' : HuddleTask) (hdue : s.Due h) :
    (∃ u ∈ s.tasks.set i t', u.due h) ∨ t.due h := by
  obtain ⟨u, hu, hudue⟩ := hdue
  obtain ⟨j, hj⟩ := List.mem_iff_getElem?.mp hu
  by_cases hij : i = j
  · subst hij
    obtain rfl := Option.some.inj (ht.symm.trans hj)
    exact .inr hudue
  · refine .inl ⟨u, List.mem_of_getElem? (i := j) ?_, hudue⟩
    rw [getElem?_set ht, if_neg hij, hj]

theorem due_of_set (ht : s.tasks[i]? = some t) (hdue : t'.due h) :
    ∃ u ∈ s.tasks.set i t', u.due h := by
  refine ⟨t', List.mem_of_getElem? (i := i) ?_, hdue⟩
  rw [getElem?_set ht, if_pos rfl]

variable (hs : s.Sound)
include hs

variable (ht : s.tasks[i]? = some t)
include ht

/-- **A step that leaves the rows as they are**, by what it does to the participations and
to the place of the one call. -/
theorem Sound.go (hhoused : store.Housed)
    (hempty : ∀ h, s.store.count h = 0 → store.count h = 0 ∨ t.holds = some h)
    (hlost : ∀ h, store.count h = 0 → s.store.count h = 0 ∨ (s.Live h → s.Due h) ∨ t'.due h)
    (hholds : ∀ h, t'.holds = some h → (t.holds = some h ∧ t'.creates = t.creates) ∨
      (s.Free h ∧ t'.creates = none ∧ s.Live h))
    (hcreates : ∀ e, t'.creates = some e → t.creates = some e)
    (hundoes : ∀ h, t'.undoes = some h → t.undoes = some h ∨ (t.holds = some h ∧ t'.creates = none))
    (hends : ∀ h, t'.ends = some h → store.count h = 0)
    (hclears : ∀ h, t'.clears = some h → ∃ room, s.rows.lookup h = some ⟨room, true⟩)
    (hdue : ∀ h, t.due h → t'.due h ∨ store.count h ≠ 0 ∨ ¬ s.Live h) :
    Sound { store := store, rows := s.rows, tasks := s.tasks.set i t' } := by
  have hin : t ∈ s.tasks := List.mem_of_getElem? ht
  -- what is empty stays so, the huddle that this call holds aside
  have hfull : ∀ h, (∃ room, s.rows.lookup h = some ⟨room, true⟩) → store.count h = 0 := by
    rintro h ⟨room, hrow⟩
    refine (hempty h (hs.ended h room hrow)).resolve_right fun hheld => ?_
    cases hc : t.creates with
    | none =>
      obtain ⟨room', hrow'⟩ := hs.held t hin h hheld hc
      cases hrow.symm.trans hrow'
    | some e =>
      have hnot := (hs.created t hin e hc).1
      have heq : e.1 = h := Option.some.inj ((holds_of_creates hc).symm.trans hheld)
      rw [heq, ← AList.lookup_eq_none, hrow] at hnot
      cases hnot
  refine { housed := hhoused
           live := fun h hlive => ?_
           ended := fun h room hrow => hfull h ⟨room, hrow⟩
           single := hs.single
           holder := ?_
           held := ?_
           created := ?_
           starter := ?_
           undone := ?_
           empty := ?_
           cleared := ?_ }
  · -- whoever was due is, and what was lost is on a list
    by_cases hzero : store.count h = 0
    · right
      have hsdue : s.Due h ∨ t'.due h := by
        rcases hlost h hzero with hold | hdue' | hdue'
        · exact .inl ((hs.live h hlive).resolve_left (not_not.mpr hold))
        · exact .inl (hdue' hlive)
        · exact .inr hdue'
      rcases hsdue with hsdue | hdue'
      · rcases due_set ht t' hsdue with hothers | hown
        · exact hothers
        · rcases hdue h hown with hdue' | hne | hdead
          · exact due_of_set ht hdue'
          · exact absurd hzero hne
          · exact absurd hlive hdead
      · exact due_of_set ht hdue'
    · exact .inl hzero
  · exact hs.holder.set ht fun h hheld => (hholds h hheld).imp And.left And.left
  · intro u hu h hheld hc
    rcases mem_set hu with hold | rfl
    · exact hs.held u hold h hheld hc
    · rcases hholds h hheld with ⟨hold, hsame⟩ | ⟨-, -, hrow⟩
      · exact hs.held t hin h hold (hsame ▸ hc)
      · exact hrow
  · intro u hu e he
    rcases mem_set hu with hold | rfl
    · exact hs.created u hold e he
    · exact hs.created t hin e (hcreates e he)
  · refine hs.starter.set ht fun room hroom => .inl ?_
    obtain ⟨e, he, rfl⟩ := Option.map_eq_some_iff.mp hroom
    exact startsIn_of_creates (hcreates e he)
  · intro u hu v hv e he
    have hv' : ∃ w ∈ s.tasks, w.creates = some e ∧ (v = t' → w = t) := by
      rcases mem_set hv with hold | rfl
      · by_cases hvt : v = t'
        · exact ⟨t, hin, hcreates e (hvt ▸ he), fun _ => rfl⟩
        · exact ⟨v, hold, he, fun heq => absurd heq hvt⟩
      · exact ⟨t, hin, hcreates e he, fun _ => rfl⟩
    obtain ⟨w, hw, hwe, -⟩ := hv'
    rcases mem_set hu with hold | rfl
    · exact hs.undone u hold w hw e hwe
    · intro hundo
      rcases hundoes e.1 hundo with hold | ⟨hheld, hnone⟩
      · exact hs.undone t hin w hw e hwe hold
      · -- the join that failed held the row, so who inserts it is this one
        obtain ⟨j, hj⟩ := List.mem_iff_getElem?.mp hw
        have hij := hs.holder i j t w e.1 ht hj hheld (holds_of_creates hwe)
        rcases mem_set hv with hold | rfl
        · obtain ⟨k, hk⟩ := List.mem_iff_getElem?.mp hv
          rw [getElem?_set ht] at hk
          by_cases hik : i = k
          · rw [if_pos hik] at hk
            rw [← Option.some.inj hk, hnone] at he
            cases he
          · rw [if_neg hik] at hk
            exact hik (hs.holder i k t v e.1 ht hk hheld (holds_of_creates he))
        · rw [hnone] at he
          cases he
  · intro u hu h huends
    rcases mem_set hu with hold | rfl
    · by_contra hne
      have hheld := (hempty h (hs.empty u hold h huends)).resolve_left hne
      obtain ⟨huheld, -⟩ := holds_of_ends huends
      obtain ⟨j, hj⟩ := List.mem_iff_getElem?.mp hu
      change (s.tasks.set i t')[j]? = some u at hj
      rw [getElem?_set ht] at hj
      by_cases hij : i = j
      · rw [if_pos hij] at hj
        exact hne (hends h (Option.some.inj hj ▸ huends))
      · rw [if_neg hij] at hj
        exact hij (hs.holder i j t u h ht hj hheld huheld)
    · exact hends h huends
  · intro u hu h huclears
    rcases mem_set hu with hold | rfl
    · exact hs.cleared u hold h huclears
    · exact hclears h huclears

/-- A step to a place where nothing is held, with the participations as they were. -/
theorem Sound.moves (hholds : t'.holds = none)
    (hundoes : t'.undoes = none) (hclears : t'.clears = none)
    (hdue : ∀ h, t.due h → t'.due h ∨ s.store.count h ≠ 0 ∨ ¬ s.Live h) :
    Sound { s with tasks := s.tasks.set i t' } := by
  refine hs.go ht hs.housed (fun h => .inl) (fun h => .inl) ?_ ?_ ?_ ?_ ?_ hdue
  · exact fun h hheld => nomatch hholds.symm.trans hheld
  · exact fun e he => nomatch hholds.symm.trans (holds_of_creates he)
  · exact fun h hu => nomatch hundoes.symm.trans hu
  · exact fun h hends => nomatch hholds.symm.trans (holds_of_ends hends).1
  · exact fun h hc => nomatch hclears.symm.trans hc

/-- A step that takes participations away and goes on to look up their huddles. -/
theorem Sound.takes {ls removed : List Ulid} (hremoves : Removes s.store store ls)
    (hlisted : ∀ h ∈ ls, h ∈ removed ∨ (store.count h = 0 → s.Live h → s.Due h))
    (hdue : ∀ h, t.due h → h ∈ removed) :
    Sound { store := store, rows := s.rows, tasks := s.tasks.set i (lookups removed []) } := by
  refine hs.go ht (hs.housed.removes hremoves) (fun h hzero => .inl (hremoves.empty hzero))
    ?_ ?_ ?_ ?_ ?_ ?_ (fun h hd => .inl (.inl (hdue h hd)))
  · intro h hzero
    rcases hremoves.lost hzero with hold | hin
    · exact .inl hold
    · rcases hlisted h hin with hin | hlater
      · exact .inr (.inr (.inl hin))
      · exact .inr (.inl (hlater hzero))
  · exact fun h hheld => absurd hheld (by simp [holds])
  · exact fun e he => absurd he (by simp [creates])
  · exact fun h hu => absurd hu (by simp [undoes])
  · exact fun h hends => absurd hends (by simp [ends])
  · exact fun h hc => absurd hc (by simp [clears])

omit ht

/-- A call that begins. -/
theorem Sound.starts (hbegins : Begins t) : Sound { s with tasks := s.tasks ++ [t] } := by
  have hin : ∀ u ∈ s.tasks ++ [t], u ∈ s.tasks ∨ u = t := by
    intro u hu
    exact (List.mem_append.mp hu).imp_right List.mem_singleton.mp
  have hholds : t.holds = none := by
    unfold Begins at hbegins
    split at hbegins <;> first | rfl | exact absurd hbegins id
  have hcreates : t.creates = none := by
    cases hc : t.creates with
    | none => rfl
    | some => cases hholds.symm.trans (holds_of_creates hc)
  have hundoes : t.undoes = none := by
    unfold Begins at hbegins
    split at hbegins <;> first | rfl | exact absurd hbegins id
  have hclears : t.clears = none := by
    unfold Begins at hbegins
    split at hbegins <;> first | rfl | exact absurd hbegins id
  refine { hs with
           live := fun h hlive => ?_
           holder := hs.holder.append_one hholds
           held := fun u hu h hheld hc => ?_
           created := fun u hu e he => ?_
           starter := hs.starter.append_one (by rw [startsIn, hcreates]; rfl)
           undone := fun u hu v hv e he => ?_
           empty := fun u hu h hends => ?_
           cleared := fun u hu h hc => ?_ }
  · refine (hs.live h hlive).imp_right ?_
    rintro ⟨u, hu, hdue⟩
    exact ⟨u, List.mem_append_left _ hu, hdue⟩
  · rcases hin u hu with hold | rfl
    · exact hs.held u hold h hheld hc
    · cases hholds.symm.trans hheld
  · rcases hin u hu with hold | rfl
    · exact hs.created u hold e he
    · cases hcreates.symm.trans he
  · rcases hin v hv with hold | rfl
    · rcases hin u hu with hold' | rfl
      · exact hs.undone u hold' v hold e he
      · rw [hundoes]
        simp
    · cases hcreates.symm.trans he
  · rcases hin u hu with hold | rfl
    · exact hs.empty u hold h hends
    · cases hholds.symm.trans (holds_of_ends hends).1
  · rcases hin u hu with hold | rfl
    · exact hs.cleared u hold h hc
    · cases hclears.symm.trans hc

/-! ## Rows that change -/

omit hs

theorem activeIn_eq_none (hnone : s.activeIn room = none) (h : Ulid) :
    s.rows.lookup h ≠ some ⟨room, false⟩ := by
  intro hrow
  have hentry := AList.mem_lookup_iff.mp hrow
  rw [activeIn, Option.map_eq_none_iff, List.find?_eq_none] at hnone
  exact hnone _ hentry (by simp)

include hs

/-- **A huddle is inserted**, under a new number, in a room that has none. -/
theorem Sound.inserts {again : Bool}
    (ht : s.tasks[i]? = some (joinStart join again)) (hstarting : s.NoneStarting join.room)
    (hnone : s.activeIn join.room = none) (hunused : s.Unused h) :
    Sound { s with tasks := s.tasks.set i (joinLocked join h true) } := by
  refine { hs with
           live := fun k hlive => ?_
           holder := hs.holder.set ht fun k hk => .inr fun u hu => ?_
           held := fun u hu k hheld hc => ?_
           created := fun u hu e he => ?_
           starter := hs.starter.set ht fun room hroom => .inr fun u hu huroom => ?_
           undone := fun u hu v hv e he => ?_
           empty := fun u hu k hends => ?_
           cleared := fun u hu k hc => ?_ }
  · exact (hs.live k hlive).imp_right fun hdue => (due_set ht _ hdue).resolve_right id
  · rw [← Option.some.inj hk]
    exact (hunused.2 u hu).1
  · rcases mem_set hu with hold | rfl
    · exact hs.held u hold k hheld hc
    · exact absurd hc (by simp [creates])
  · rcases mem_set hu with hold | rfl
    · exact hs.created u hold e he
    · obtain rfl : (h, join.room) = e := Option.some.inj he
      exact ⟨hunused.1, activeIn_eq_none hnone⟩
  · obtain rfl : join.room = room := Option.some.inj hroom
    obtain ⟨e, he, heroom⟩ := Option.map_eq_some_iff.mp huroom
    exact hstarting u hu e he heroom
  · rcases mem_set hu with hold | rfl
    · rcases mem_set hv with hvold | rfl
      · exact hs.undone u hold v hvold e he
      · obtain rfl : (h, join.room) = e := Option.some.inj he
        exact (hunused.2 u hold).2
    · simp [undoes]
  · rcases mem_set hu with hold | rfl
    · exact hs.empty u hold k hends
    · exact absurd hends (by simp [ends])
  · rcases mem_set hu with hold | rfl
    · exact hs.cleared u hold k hc
    · exact absurd hc (by simp [clears])

/-- **An inserted huddle is committed.** Somebody has to be in it, or about to look at
it. -/
theorem Sound.commits (ht : s.tasks[i]? = some (joinJoined join h true evicted))
    (hsafe : s.store.count h ≠ 0 ∨ s.Due h) :
    Sound { store := s.store, rows := s.rows.insert h ⟨join.room, false⟩,
            tasks := s.tasks.set i (lookups evicted.toList []) } := by
  obtain ⟨hnew, hroom⟩ := hs.created _ (List.mem_of_getElem? ht) (h, join.room) rfl
  have hsame : ∀ k, k ≠ h → (s.rows.insert h ⟨join.room, false⟩).lookup k = s.rows.lookup k :=
    fun k hk => AList.lookup_insert_ne hk
  have hthis : (s.rows.insert h ⟨join.room, false⟩).lookup h = some ⟨join.room, false⟩ :=
    AList.lookup_insert _
  have hover : ∀ k room, (s.rows.insert h ⟨join.room, false⟩).lookup k = some ⟨room, true⟩ →
      s.rows.lookup k = some ⟨room, true⟩ := by
    intro k room hrow
    by_cases hk : k = h
    · rw [hk, hthis] at hrow
      cases hrow
    · rwa [hsame k hk] at hrow
  have hdue : ∀ k, s.Due k → ∃ u ∈ s.tasks.set i (lookups evicted.toList []), u.due k := by
    intro k hk
    rcases due_set ht (lookups evicted.toList []) hk with hothers | hown
    · exact hothers
    · exact due_of_set ht (.inl (Option.mem_toList.mpr hown))
  refine { housed := hs.housed
           live := fun k hlive => ?_
           ended := fun k room hrow => hs.ended k room (hover k room hrow)
           single := fun k l room hk hl => ?_
           holder := hs.holder.set ht fun k hk => absurd hk (by simp [holds])
           held := fun u hu k hheld hc => ?_
           created := fun u hu e he => ?_
           starter := hs.starter.set ht fun room hroom => absurd hroom (by simp [startsIn, creates])
           undone := fun u hu v hv e he => ?_
           empty := fun u hu k hends => ?_
           cleared := fun u hu k hc => ?_ }
  · by_cases hk : k = h
    · subst hk
      exact hsafe.imp_right (hdue k)
    · obtain ⟨room, hrow⟩ := hlive
      exact (hs.live k ⟨room, (hsame k hk).symm.trans hrow⟩).imp_right (hdue k)
  · -- the room had no huddle that goes on, and now it has this one
    by_cases hkh : k = h
    · by_cases hlh : l = h
      · exact hkh.trans hlh.symm
      · rw [hkh, hthis] at hk
        rw [hsame l hlh] at hl
        obtain rfl : join.room = room := congrArg HuddleRow.room (Option.some.inj hk)
        exact absurd hl (hroom l)
    · rw [hsame k hkh] at hk
      by_cases hlh : l = h
      · rw [hlh, hthis] at hl
        obtain rfl : join.room = room := congrArg HuddleRow.room (Option.some.inj hl)
        exact absurd hk (hroom k)
      · rw [hsame l hlh] at hl
        exact hs.single k l room hk hl
  · rcases mem_set hu with hold | rfl
    · obtain ⟨room, hrow⟩ := hs.held u hold k hheld hc
      by_cases hk : k = h
      · exact ⟨join.room, hk ▸ hthis⟩
      · exact ⟨room, (hsame k hk).trans hrow⟩
    · exact absurd hheld (by simp [holds])
  · rcases exists_of_mem_set ht hu with ⟨j, hij, hj⟩ | rfl
    · obtain ⟨hnotin, hnoroom⟩ := hs.created u (List.mem_of_getElem? hj) e he
      have hne : e.1 ≠ h := fun heq =>
        hij (hs.holder i j _ u h ht hj rfl (heq ▸ holds_of_creates he))
      have hroomne : e.2 ≠ join.room := fun heq =>
        hij (hs.starter i j _ u join.room ht hj rfl (heq ▸ startsIn_of_creates he))
      refine ⟨?_, fun k hrow => ?_⟩
      · rw [AList.mem_insert, not_or]
        exact ⟨hne, hnotin⟩
      · by_cases hk : k = h
        · rw [hk, hthis] at hrow
          exact hroomne (congrArg HuddleRow.room (Option.some.inj hrow)).symm
        · rw [hsame k hk] at hrow
          exact hnoroom k hrow
    · exact absurd he (by simp [creates])
  · rcases mem_set hv with hvold | rfl
    · rcases mem_set hu with hold | rfl
      · exact hs.undone u hold v hvold e he
      · simp [undoes]
    · exact absurd he (by simp [creates])
  · rcases mem_set hu with hold | rfl
    · exact hs.empty u hold k hends
    · exact absurd hends (by simp [ends])
  · rcases mem_set hu with hold | rfl
    · obtain ⟨room, hrow⟩ := hs.cleared u hold k hc
      have hk : k ≠ h := by
        rintro rfl
        cases (AList.lookup_eq_none.mpr hnew).symm.trans hrow
      exact ⟨room, (hsame k hk).trans hrow⟩
    · exact absurd hc (by simp [clears])

/-- **A huddle is ended** by who holds its row, and found nobody in it. -/
theorem Sound.ends {row : HuddleRow}
    (ht : s.tasks[i]? = some (ending h rooms)) (hrow : s.rows.lookup h = some row) :
    Sound { store := s.store, rows := s.rows.insert h { row with ended := true },
            tasks := s.tasks.set i (clearing h rooms) } := by
  have hin := List.mem_of_getElem? ht
  obtain ⟨room₀, hlive₀⟩ := hs.held _ hin h rfl rfl
  obtain rfl : row = ⟨room₀, false⟩ := Option.some.inj (hrow.symm.trans hlive₀)
  have hsame : ∀ k, k ≠ h → (s.rows.insert h ⟨room₀, true⟩).lookup k = s.rows.lookup k :=
    fun k hk => AList.lookup_insert_ne hk
  have hthis : (s.rows.insert h ⟨room₀, true⟩).lookup h = some ⟨room₀, true⟩ :=
    AList.lookup_insert _
  have hactive : ∀ k room, (s.rows.insert h ⟨room₀, true⟩).lookup k = some ⟨room, false⟩ →
      s.rows.lookup k = some ⟨room, false⟩ := by
    intro k room hk
    by_cases hkh : k = h
    · rw [hkh, hthis] at hk
      cases hk
    · rwa [hsame k hkh] at hk
  refine { housed := hs.housed
           live := fun k hlive => ?_
           ended := fun k room hk => ?_
           single := fun k l room hk hl => hs.single k l room (hactive k room hk) (hactive l room hl)
           holder := hs.holder.set ht fun k hk => absurd hk (by simp [holds])
           held := fun u hu k hheld hc => ?_
           created := fun u hu e he => ?_
           starter := hs.starter.set ht fun room hroom => absurd hroom (by simp [startsIn, creates])
           undone := fun u hu v hv e he => ?_
           empty := fun u hu k hends => ?_
           cleared := fun u hu k hc => ?_ }
  · obtain ⟨room, hk⟩ := hlive
    refine (hs.live k ⟨room, hactive k room hk⟩).imp_right fun hdue => ?_
    rcases due_set ht (clearing h rooms) hdue with hothers | hown | hown
    · exact hothers
    · rw [hown] at hk
      cases hthis.symm.trans hk
    · exact due_of_set ht hown
  · by_cases hkh : k = h
    · rw [hkh]
      exact hs.empty _ hin h rfl
    · exact hs.ended k room ((hsame k hkh).symm.trans hk)
  · -- nobody else holds the row
    rcases exists_of_mem_set ht hu with ⟨j, hij, hj⟩ | rfl
    · obtain ⟨room, hk⟩ := hs.held u (List.mem_of_getElem? hj) k hheld hc
      have hkh : k ≠ h := by
        rintro rfl
        exact hij (hs.holder i j _ u k ht hj rfl hheld)
      exact ⟨room, (hsame k hkh).trans hk⟩
    · exact absurd hheld (by simp [holds])
  · rcases mem_set hu with hold | rfl
    · obtain ⟨hnotin, hnoroom⟩ := hs.created u hold e he
      refine ⟨?_, fun k hk => hnoroom k (hactive k e.2 hk)⟩
      rw [AList.mem_insert, not_or]
      refine ⟨?_, hnotin⟩
      rintro heq
      rw [← AList.lookup_eq_none, heq, hlive₀] at hnotin
      cases hnotin
    · exact absurd he (by simp [creates])
  · rcases mem_set hv with hvold | rfl
    · rcases mem_set hu with hold | rfl
      · exact hs.undone u hold v hvold e he
      · simp [undoes]
    · exact absurd he (by simp [creates])
  · rcases mem_set hu with hold | rfl
    · exact hs.empty u hold k hends
    · exact absurd hends (by simp [HuddleTask.ends])
  · rcases mem_set hu with hold | rfl
    · obtain ⟨room, hk⟩ := hs.cleared u hold k hc
      have hkh : k ≠ h := by
        rintro rfl
        cases hlive₀.symm.trans hk
      exact ⟨room, (hsame k hkh).trans hk⟩
    · obtain rfl : h = k := Option.some.inj hc
      exact ⟨room₀, hthis⟩

/-! ## One step, and runs -/

omit hs

/-- What a run must not do: take back the participation of a join that failed where it is
the last one of a huddle that goes on, or commit a huddle in which nobody is any more,
while no call will look at that huddle. -/
def Safe (s : HuddleService) : HuddleServiceAction → Prop
  | .step i _ =>
    match s.tasks[i]? with
    | some (undo h p _) => (∀ q ∈ (s.store.members h).keys, q = p) → s.Live h → s.Due h
    | some (joinJoined _ h true _) => s.store.count h ≠ 0 ∨ s.Due h
    | _ => True
  | _ => True

instance (s : HuddleService) (a : HuddleServiceAction) : Decidable (s.Safe a) := by
  unfold Safe
  split
  · split <;> infer_instance
  · infer_instance

include hs

/-- **A join writes its participation**: what it evicts, it will look at. -/
theorem Sound.joins {created : Bool} {result : HuddleJoined}
    {status : HuddleStatus} {deadline limit : ℕ}
    (ht : s.tasks[i]? = some (joinLocked join h created))
    (hjoin : s.store.join (join.participation h) deadline limit status = (store, some result)) :
    Sound { store := store, rows := s.rows,
            tasks := s.tasks.set i
              (joinJoined join h created (result.evicted.map Participation.huddleId)) } := by
  obtain ⟨left, hremoves, hmembers⟩ :=
    join_accepted (p := join.participation h) hs.housed (congrArg Prod.snd hjoin)
  rw [hjoin] at hmembers
  change ∀ k, store.members k = if k = h then _ else _ at hmembers
  have hhere : store.count h ≠ 0 := by
    rw [Ne, count_eq_zero_iff, hmembers h, if_pos rfl]
    intro hnone
    have hself : ((left.members h).insert join.participant (join.participation h)).lookup
        join.participant = some (join.participation h) := AList.lookup_insert _
    cases (hnone _).symm.trans hself
  have helse : ∀ k, k ≠ h → store.count k = left.count k := by
    intro k hk
    unfold count
    rw [hmembers k, if_neg hk]
  refine hs.go ht ?_ ?_ ?_ ?_ ?_ ?_ ?_ ?_ (fun k hdue => absurd hdue id)
  · intro k p r hr
    rw [hmembers] at hr
    by_cases hk : k = h
    · rw [if_pos hk] at hr
      by_cases hp : p = join.participant
      · rw [hp] at hr
        change ((left.members k).insert join.participant _).lookup join.participant = _ at hr
        rw [AList.lookup_insert] at hr
        rw [← Option.some.inj hr, hk]
        rfl
      · change ((left.members k).insert join.participant _).lookup p = _ at hr
        rw [AList.lookup_insert_ne hp] at hr
        exact hs.housed k p r (hremoves.fewer k p r hr)
    · rw [if_neg hk] at hr
      exact hs.housed k p r (hremoves.fewer k p r hr)
  · intro k hzero
    by_cases hk : k = h
    · exact .inr (congrArg some hk.symm)
    · exact .inl ((helse k hk).trans (hremoves.empty hzero))
  · intro k hzero
    have hk : k ≠ h := by
      rintro rfl
      exact hhere hzero
    rcases hremoves.lost ((helse k hk).symm.trans hzero) with hold | hin
    · exact .inl hold
    · obtain ⟨p, hp, rfl⟩ := List.mem_map.mp hin
      refine .inr (.inr ?_)
      show result.evicted.map Participation.huddleId = some p.huddleId
      rw [Option.mem_toList.mp hp]
      rfl
  · intro k hheld
    refine .inl ⟨hheld, ?_⟩
    cases created <;> rfl
  · intro e he
    cases created with
    | false => exact absurd he (by simp [creates])
    | true => exact he
  · exact fun k hu => absurd hu (by simp [undoes])
  · exact fun k hends => absurd hends (by simp [HuddleTask.ends])
  · exact fun k hc => absurd hc (by simp [clears])

/-- **A failed join takes its participation back.** -/
theorem Sound.undoes (ht : s.tasks[i]? = some (undo h p evicted))
    (hsafe : (∀ q ∈ (s.store.members h).keys, q = p) → s.Live h → s.Due h) :
    Sound { store := (s.store.removeScript h p).1, rows := s.rows,
            tasks := s.tasks.set i (lookups evicted.toList []) } := by
  refine hs.takes ht (removes_remove s.store h p false) (fun k hk => .inr fun hzero => ?_)
    (fun k hdue => Option.mem_toList.mpr hdue)
  obtain ⟨-, -, rfl⟩ := List.mem_map.mp hk
  refine hsafe fun q hq => ?_
  by_contra hne
  rw [count_eq_zero_iff] at hzero
  have hgone : ((s.store.remove h p false).1.members h).lookup q = none := hzero q
  rw [members_remove, update_self, AList.lookup_erase_ne hne,
    AList.lookup_eq_none] at hgone
  exact hgone (AList.mem_keys.mpr hq)

/-- **A participation is removed**, and then its huddle is looked at. -/
theorem Sound.removes (ht : s.tasks[i]? = some (removing h p)) {r : Participation}
    (hremoved : (s.store.removeScript h p).2.1 = some r) :
    Sound { store := (s.store.removeScript h p).1, rows := s.rows,
            tasks := s.tasks.set i (lookups [r.huddleId] []) } := by
  have hhuddle : r.huddleId = h := by
    refine hs.housed h p r ?_
    rw [← remove_snd s.store h p false]
    exact hremoved
  refine hs.takes ht (removes_remove s.store h p false) (fun k hk => .inl ?_)
    (fun k hdue => absurd hdue id)
  obtain ⟨-, -, rfl⟩ := List.mem_map.mp hk
  exact List.mem_singleton.mpr hhuddle.symm

/-- A participation that is not there is not removed. -/
theorem Sound.misses
    (ht : s.tasks[i]? = some (removing h p)) (hremoved : (s.store.removeScript h p).2.1 = none) :
    Sound { store := (s.store.removeScript h p).1, rows := s.rows,
            tasks := s.tasks.set i done } := by
  have hnone : (s.store.members h).lookup p = none := by
    rw [← remove_snd s.store h p false]
    exact hremoved
  have hsame : (s.store.removeScript h p).1 = s.store :=
    congrArg Prod.fst (remove_of_none hnone false)
  rw [hsame]
  exact hs.moves ht rfl rfl rfl fun k hdue => absurd hdue id

/-- **A huddle that is over is cleared**: nobody is in it. -/
theorem Sound.clears (ht : s.tasks[i]? = some (clearing h rooms)) :
    Sound { store := (s.store.clear h).1, rows := s.rows,
            tasks := s.tasks.set i (checking rooms) } := by
  obtain ⟨room, hrow⟩ := hs.cleared _ (List.mem_of_getElem? ht) h rfl
  have hmembers := members_clear (hs.ended h room hrow)
  have hcount : ∀ k, (s.store.clear h).1.count k = s.store.count k := by
    intro k
    unfold count
    rw [hmembers]
  refine hs.go ht ?_ (fun k hzero => .inl ((hcount k).trans hzero))
    (fun k hzero => .inl ((hcount k).symm.trans hzero)) ?_ ?_ ?_ ?_ ?_
    (fun k hdue => .inl hdue)
  · intro k p r hr
    rw [hmembers] at hr
    exact hs.housed k p r hr
  · exact fun k hheld => absurd hheld (by simp [holds])
  · exact fun e he => absurd he (by simp [creates])
  · exact fun k hu => absurd hu (by simp [HuddleTask.undoes])
  · exact fun k hends => absurd hends (by simp [HuddleTask.ends])
  · exact fun k hc => absurd hc (by simp [HuddleTask.clears])

/-- **A row is locked that is still of a huddle that goes on.** -/
theorem Sound.locks (ht : s.tasks[i]? = some t) (hfree : s.Free h) (hrow : s.rows.lookup h = some ⟨room, false⟩) (hholds : t'.holds = some h)
    (hcreates : t'.creates = none) (hundoes : t'.undoes = none) (hends : t'.ends = none)
    (hclears : t'.clears = none) (hdue : ∀ k, t.due k → t'.due k) :
    Sound { s with tasks := s.tasks.set i t' } := by
  refine hs.go ht hs.housed (fun k => .inl) (fun k => .inl) ?_ ?_ ?_ ?_ ?_
    fun k hk => .inl (hdue k hk)
  · intro k hk
    obtain rfl : h = k := Option.some.inj (hholds.symm.trans hk)
    exact .inr ⟨hfree, hcreates, room, hrow⟩
  · exact fun e he => nomatch hcreates.symm.trans he
  · exact fun k hu => nomatch hundoes.symm.trans hu
  · exact fun k he => nomatch hends.symm.trans he
  · exact fun k hc => nomatch hclears.symm.trans hc

omit hs

theorem not_live (hrow : ∀ room, s.rows.lookup h ≠ some ⟨room, false⟩) : ¬ s.Live h := by
  rintro ⟨room, hlive⟩
  exact hrow room hlive

include hs

/-- **One step of a call keeps what every step keeps**, unless it is one of the two. -/
theorem Sound.next {choice : Ulid}
    {rows : AList (fun _ : Ulid => HuddleRow)} (hsafe : s.Safe (.step i choice))
    (ht : s.tasks[i]? = some t) (hnext : s.next choice t = some ((store, rows), t')) :
    Sound { store := store, rows := rows, tasks := s.tasks.set i t' } := by
  unfold HuddleService.next at hnext
  cases t with
  | joinWait =>
    simp only at hnext
    split_ifs at hnext with hfree
    split at hnext
    · next room hrow =>
      cases hnext
      exact hs.locks ht hfree hrow rfl rfl rfl rfl rfl fun k hdue => absurd hdue id
    · cases hnext
      exact hs.moves ht rfl rfl rfl fun k hdue => absurd hdue id
  | joinStart join again =>
    simp only at hnext
    by_cases hstarting : s.NoneStarting join.room
    · rw [if_pos hstarting] at hnext
      split at hnext
      · cases hnext
        cases again
        all_goals exact hs.moves ht rfl rfl rfl fun k hdue => absurd hdue id
      · next hnone =>
        by_cases hunused : s.Unused choice
        · rw [if_pos hunused] at hnext
          cases hnext
          exact hs.inserts ht hstarting hnone hunused
        · rw [if_neg hunused] at hnext
          cases hnext
    · rw [if_neg hstarting] at hnext
      cases hnext
  | joinLocked =>
    simp only at hnext
    split at hnext
    · cases hnext
      exact hs.moves ht rfl rfl rfl fun k hdue => absurd hdue id
    · next result hresult =>
      cases hnext
      exact hs.joins ht (Prod.ext rfl hresult)
  | joinJoined _ _ created =>
    cases hnext
    cases created with
    | true =>
      simp only [Safe, ht] at hsafe
      exact hs.commits ht hsafe
    | false =>
      exact hs.moves ht rfl rfl rfl fun k hdue => .inl (.inl (Option.mem_toList.mpr hdue))
  | undo =>
    cases hnext
    simp only [Safe, ht] at hsafe
    exact hs.undoes ht hsafe
  | lookups removed =>
    cases removed with
    | nil =>
      cases hnext
      exact hs.moves ht rfl rfl rfl fun k hdue => .inl (hdue.resolve_left List.not_mem_nil)
    | cons =>
      simp only at hnext
      split_ifs at hnext with hskip
      · cases hnext
        refine hs.moves ht rfl rfl rfl fun k hdue => ?_
        rcases hdue with hin | hin
        · rcases List.mem_cons.mp hin with rfl | hin
          · refine hskip.imp .inr fun hnotin => .inr (not_live fun room hrow => ?_)
            cases (AList.lookup_eq_none.mpr hnotin).symm.trans hrow
          · exact .inl (.inl hin)
        · exact .inl (.inr hin)
      · cases hnext
        refine hs.moves ht rfl rfl rfl fun k hdue => .inl ?_
        rcases hdue with hin | hin
        · rcases List.mem_cons.mp hin with rfl | hin
          · exact .inr (List.mem_append_right _ (.head _))
          · exact .inl hin
        · exact .inr (List.mem_append_left _ hin)
  | checking =>
    simp only at hnext
    split_ifs at hnext with hempty hin
    · cases hnext
      refine hs.moves ht rfl rfl rfl fun k hdue => ?_
      rw [hempty] at hdue
      cases hdue
    · cases hnext
      refine hs.moves ht rfl rfl rfl fun k hdue => .inl ?_
      by_cases hk : k = choice
      · exact .inl hk
      · exact .inr ((List.mem_erase_of_ne hk).mpr hdue)
  | endLock =>
    simp only at hnext
    split_ifs at hnext with hfree
    split at hnext
    · next room hrow =>
      cases hnext
      exact hs.locks ht hfree hrow rfl rfl rfl rfl rfl fun k hdue => hdue
    · next hskip =>
      cases hnext
      refine hs.moves ht rfl rfl rfl fun k hdue => ?_
      rcases hdue with rfl | hin
      · exact .inr (.inr (not_live fun room hrow => hskip room hrow))
      · exact .inl hin
  | endRead huddle =>
    simp only at hnext
    split_ifs at hnext with hzero
    · cases hnext
      refine hs.go ht hs.housed (fun k => .inl) (fun k => .inl) ?_ ?_ ?_ ?_ ?_
        fun k hdue => .inl hdue
      · exact fun k hk => .inl ⟨hk, rfl⟩
      · exact fun e he => absurd he (by simp [creates])
      · exact fun k hu => absurd hu (by simp [HuddleTask.undoes])
      · intro k hk
        obtain rfl : huddle = k := Option.some.inj hk
        exact hzero
      · exact fun k hc => absurd hc (by simp [HuddleTask.clears])
    · cases hnext
      refine hs.moves ht rfl rfl rfl fun k hdue => ?_
      rcases hdue with rfl | hin
      · exact .inr (.inl hzero)
      · exact .inl hin
  | ending =>
    simp only at hnext
    split at hnext
    · next row hrow =>
      cases hnext
      exact hs.ends ht hrow
    · cases hnext
  | clearing =>
    cases hnext
    exact hs.clears ht
  | leaveRead user =>
    simp only at hnext
    split at hnext
    · next p _ =>
      cases hnext
      by_cases huser : p.userId = user
      · rw [if_pos huser]
        exact hs.moves ht rfl rfl rfl fun k hdue => absurd hdue id
      · rw [if_neg huser]
        exact hs.moves ht rfl rfl rfl fun k hdue => absurd hdue id
    · cases hnext
      exact hs.moves ht rfl rfl rfl fun k hdue => absurd hdue id
  | removing =>
    simp only at hnext
    split at hnext
    · next p hremoved =>
      cases hnext
      exact hs.removes ht hremoved
    · next hremoved =>
      cases hnext
      exact hs.misses ht hremoved
  | currentLookup _ _ affected =>
    simp only at hnext
    split at hnext
    · next row _ =>
      cases hnext
      by_cases hroom : row.room ∈ affected
      · rw [if_pos hroom]
        exact hs.moves ht rfl rfl rfl fun k hdue => absurd hdue id
      · rw [if_neg hroom]
        exact hs.moves ht rfl rfl rfl fun k hdue => absurd hdue id
    · cases hnext
      exact hs.moves ht rfl rfl rfl fun k hdue => absurd hdue id
  | sweep now =>
    cases hnext
    exact hs.takes ht (removes_sweep hs.housed now huddleSweepBatch) (fun k hk => .inl hk)
      fun k hdue => absurd hdue id
  | done => cases hnext
  | _ =>
    simp only at hnext
    split at hnext
    all_goals
      cases hnext
      exact hs.moves ht rfl rfl rfl fun k hdue => absurd hdue id

theorem Sound.fails (ht : s.tasks[i]? = some t) (hfailed : failed t = some t') :
    Sound { s with tasks := s.tasks.set i t' } := by
  unfold failed at hfailed
  split at hfailed
  iterate 4
    cases hfailed
    exact hs.moves ht rfl rfl rfl fun k hdue => absurd hdue id
  · next join huddle created evicted =>
    cases hfailed
    refine hs.go ht hs.housed (fun k => .inl) (fun k => .inl) ?_ ?_ ?_ ?_ ?_ fun k hdue => .inl hdue
    · exact fun k hheld => absurd hheld (by simp [holds])
    · exact fun e he => absurd he (by simp [creates])
    · exact fun k hk => .inr ⟨hk, rfl⟩
    · exact fun k hends => absurd hends (by simp [HuddleTask.ends])
    · exact fun k hc => absurd hc (by simp [HuddleTask.clears])
  · cases hfailed

/-- **A step** keeps what every step keeps. -/
theorem Sound.act {a : HuddleServiceAction} (hsafe : s.Safe a)
    (hact : s.act a = some s') : s'.Sound := by
  unfold HuddleService.act at hact
  cases a with
  | start =>
    simp only at hact
    split_ifs at hact with hbegins
    cases hact
    exact hs.starts hbegins
  | step =>
    simp only at hact
    split at hact
    · cases hact
    · next t ht =>
      split at hact
      · cases hact
      · next store rows t' hnext =>
        cases hact
        exact hs.next hsafe ht hnext
  | fail =>
    simp only at hact
    split at hact
    · cases hact
    · next t ht =>
      split at hact
      · cases hact
      · next t' hfailed =>
        cases hact
        exact hs.fails ht hfailed

omit hs

theorem sound_of_runs (h : system.ReachableBy Safe s) : s.Sound := by
  refine h.invariant (I := Sound) ?_ fun s a s' hs hsafe hstep => hs.act hsafe hstep
  rintro s rfl
  exact sound_new

/-- **When no call is in progress**, a huddle that goes on has somebody in it, one that is
over has nobody, and a room has one huddle at most that goes on. -/
theorem rest_of_runs (h : system.ReachableBy Safe s) (hrest : s.AtRest) :
    (∀ huddle room, s.rows.lookup huddle = some ⟨room, false⟩ → s.store.count huddle ≠ 0) ∧
      (∀ huddle room, s.rows.lookup huddle = some ⟨room, true⟩ → s.store.count huddle = 0) ∧
      ∀ huddle huddle' room, s.rows.lookup huddle = some ⟨room, false⟩ →
        s.rows.lookup huddle' = some ⟨room, false⟩ → huddle = huddle' := by
  have hs := sound_of_runs h
  refine ⟨fun huddle room hrow => ?_, hs.ended, hs.single⟩
  refine (hs.live huddle ⟨room, hrow⟩).resolve_right ?_
  -- a call that is over looks at nothing
  rintro ⟨t, ht, hdue⟩
  rw [hrest t ht] at hdue
  exact hdue

/-- Two users who join the huddle of a room, and the first one again. -/
def firstJoin : HuddleJoin := ⟨10, 1, 201, 0, ⟨5, [], "", ""⟩⟩

def secondJoin : HuddleJoin := ⟨10, 2, 202, 1, ⟨5, [], "", ""⟩⟩

def laterJoin : HuddleJoin := ⟨10, 1, 203, 50000, ⟨5, [], "", ""⟩⟩

/-- A call that is alone, for as many steps. -/
def steps (i : ℕ) (choice : Ulid) (n : ℕ) : List HuddleServiceAction :=
  List.replicate n (.step i choice)

/-- **A huddle that ended, and the next one**: two join, one leaves, the other one is
swept, and the first one starts another huddle. -/
theorem second_huddle_goes_on : ∃ s : HuddleService, s.rows.lookup 100 = some ⟨10, true⟩ ∧
      s.rows.lookup 101 = some ⟨10, false⟩ ∧ s.store.count 100 = 0 ∧ s.store.count 101 ≠ 0 := by
  have hrun : (system.runBy Safe new ([.start (.joinFind firstJoin false)] ++ steps 0 100 6 ++
        [.start (.joinFind secondJoin false)] ++ steps 1 100 6 ++
        [.start (.leaveRead 1 100 201)] ++ steps 2 100 8 ++
        [.start (.sweep 40000)] ++ steps 3 100 9 ++
        [.start (.joinFind laterJoin false)] ++ steps 4 101 6)).any
      (fun s => decide (s.AtRest ∧ s.rows.lookup 100 = some ⟨10, true⟩ ∧
        s.rows.lookup 101 = some ⟨10, false⟩)) = true := by decide +kernel
  obtain ⟨s, hreach, htest⟩ := TransitionSystem.exists_of_runBy hrun rfl
  obtain ⟨hrest, hover, hactive⟩ := of_decide_eq_true htest
  have hsettled := rest_of_runs hreach hrest
  exact ⟨s, hover, hactive, hsettled.2.1 100 10 hover, hsettled.1 101 10 hactive⟩

/-- **A huddle goes on and nobody is in it**: a second user's join writes to Redis and
then fails; before it takes its participation back, the first user leaves, and finds
the other one there. -/
theorem empty_huddle_stays :
    ∃ s, system.Reachable s ∧ s.AtRest ∧ s.rows.lookup 100 = some ⟨10, false⟩ ∧
      s.store.count 100 = 0 := by
  have hrun : (system.run new ([.start (.joinFind firstJoin false)] ++ steps 0 100 6 ++
        [.start (.joinFind secondJoin false)] ++ steps 1 100 3 ++ [.fail 1] ++
        [.start (.leaveRead 1 100 201)] ++ steps 2 100 8 ++ steps 1 100 3)).any
      (fun s => decide (s.AtRest ∧ s.rows.lookup 100 = some ⟨10, false⟩ ∧
        s.store.count 100 = 0)) = true := by decide +kernel
  obtain ⟨s, hreach, htest⟩ := TransitionSystem.exists_of_run hrun rfl
  exact ⟨s, hreach, of_decide_eq_true htest⟩

end HuddleService

end Hibari
