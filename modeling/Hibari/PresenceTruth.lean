import Hibari.Presence

/-!
# Presence converges

When no operation is in progress, the hash of a user says of every instance how
many connections it has and how many of them are looked at, and what was published
last is the state that follows: `presence_converges`. An instance announces its
counts under the user's lock, so between two announcements the field is what was
announced last, or the operation that writes it is under way (`Tracked`).

Writing the fields again is outside of this. `RefreshPresence` writes what was
announced when it read, and by the time it writes this may be old: a field that
was deleted in between with the last connection comes back
(`ghost_comes_back`), and a field that is about to be written is written without
an announcement. The theorem is about runs in which such a write changes nothing.
-/

namespace Hibari

open List Option Function

/-! ## Counts -/

namespace Instance

variable {x : Instance} {userId u : Ulid} {c : ℕ} {active : Bool}

/-- The connections that there are were numbered. -/
def Numbered (x : Instance) : Prop := ∀ c ∈ x.clients, c < x.next

theorem Numbered.connect (h : x.Numbered) : (x.connect userId).Numbered := by
  intro c hc
  rcases Finset.mem_insert.mp hc with rfl | hc
  · exact Nat.lt_succ_self _
  · exact (h c hc).trans (Nat.lt_succ_self _)

/-- A new connection does not count for another user. -/
theorem counts_connect (h : x.Numbered) (hu : u ≠ userId) :
    (x.connect userId).counts u = x.counts u := by
  have hold : ∀ c ∈ x.clients, (x.connect userId).records c = x.records c := fun c hc =>
    update_of_ne (Nat.ne_of_lt (h c hc)) _ _
  have hnew : ((x.connect userId).records x.next).userId ≠ u := by
    show (update x.records x.next _ x.next).userId ≠ u
    rw [update_self]
    exact Ne.symm hu
  have hsame : (x.connect userId).connections u = x.connections u := by
    show (insert x.next x.clients).filter _ = x.clients.filter _
    rw [Finset.filter_insert, if_neg hnew]
    exact Finset.filter_congr fun c hc => by rw [hold c hc]
  unfold counts
  rw [hsame]
  congr 2
  exact Finset.filter_congr fun c hc => by rw [hold c (Finset.mem_filter.mp hc).1]

/-- A connection that is gone does not count for another user. -/
theorem counts_disconnect (hu : u ≠ (x.records c).userId) :
    (x.disconnect c).counts u = x.counts u := by
  have hsame : (x.disconnect c).connections u = x.connections u := by
    show (x.clients.erase c).filter _ = x.clients.filter _
    rw [Finset.filter_erase]
    refine Finset.erase_eq_of_notMem fun hmem => ?_
    exact hu (Finset.mem_filter.mp hmem).2.symm
  unfold counts
  rw [hsame]
  rfl

theorem userId_setActivity (d : ℕ) :
    ((x.setActivity c active).records d).userId = (x.records d).userId := by
  show (update x.records c _ d).userId = _
  by_cases hd : d = c
  · rw [hd, update_self]
  · rw [update_of_ne hd]

/-- Whether a connection is looked at does not count for another user. -/
theorem counts_setActivity (hu : u ≠ (x.records c).userId) :
    (x.setActivity c active).counts u = x.counts u := by
  have hsame : (x.setActivity c active).connections u = x.connections u :=
    Finset.filter_congr fun d _ => by rw [userId_setActivity]
  unfold counts
  rw [hsame]
  congr 2
  refine Finset.filter_congr fun d hd => ?_
  have hdc : d ≠ c := by
    rintro rfl
    exact hu (Finset.mem_filter.mp hd).2.symm
  show (update x.records c _ d).active = true ↔ _
  rw [update_of_ne hdc]

theorem counts_eq_zero (h : ¬ 0 < (x.counts u).conns) : x.counts u = ⟨0, 0⟩ := by
  have hempty : x.connections u = ∅ := Finset.card_eq_zero.mp (Nat.eq_zero_of_not_pos h)
  unfold counts
  rw [hempty]
  rfl

/-- What is announced is what was noted. -/
theorem announcedCounts_announce : (x.announce u (x.counts u)).announcedCounts u = x.counts u := by
  unfold announcedCounts announce
  by_cases hpos : 0 < (x.counts u).conns
  · show ((if _ then _ else _ : Finmap _).lookup u).getD _ = _
    rw [if_pos hpos, Finmap.lookup_insert, getD_some]
  · show ((if _ then _ else _ : Finmap _).lookup u).getD _ = _
    rw [if_neg hpos, Finmap.lookup_erase, getD_none, counts_eq_zero hpos]

theorem announcedCounts_announce_of_ne (hu : u ≠ userId) (counts : PresenceCounts) :
    (x.announce userId counts).announcedCounts u = x.announcedCounts u := by
  unfold announcedCounts announce
  by_cases hpos : 0 < counts.conns
  · show ((if _ then _ else _ : Finmap _).lookup u).getD _ = _
    rw [if_pos hpos, Finmap.lookup_insert_of_ne _ hu]
  · show ((if _ then _ else _ : Finmap _).lookup u).getD _ = _
    rw [if_neg hpos, Finmap.lookup_erase_ne hu]

end Instance

open Instance

/-! ## What operations are at -/

namespace PresenceTask

variable {ι : Type} [DecidableEq ι]

/-- Whether an operation holds a lock of an instance. -/
def holds (i : ι) (n : ℕ) : PresenceTask ι → Bool
  | .count j u => decide (j = i ∧ stripe u = n)
  | .workspaces j u _ => decide (j = i ∧ stripe u = n)
  | .write j u _ _ => decide (j = i ∧ stripe u = n)
  | _ => false

/-- An operation will compare the counts of a user with those announced. -/
def Compares (i : ι) (u : Ulid) : PresenceTask ι → Prop
  | .sync j v => j = i ∧ v = u
  | .count j v => j = i ∧ v = u
  | _ => False

/-- An operation will write the field of a user. -/
def Writes (i : ι) (u : Ulid) : PresenceTask ι → Prop
  | .workspaces j v _ => j = i ∧ v = u
  | .write j v _ _ => j = i ∧ v = u
  | _ => False

/-- The counts that an operation will write are those announced. -/
def UpToDate (w : PresenceWorld ι) : PresenceTask ι → Prop
  | .workspaces i u counts => counts = (w.instances i).announcedCounts u
  | .write i u counts _ => counts = (w.instances i).announcedCounts u
  | _ => True

end PresenceTask

section Locks

variable {ι : Type} [Fintype ι] [DecidableEq ι] {k : ℕ} {w w' : PresenceWorld ι}
  {t t' : PresenceTask ι}

omit [Fintype ι] in
theorem locks_setLock (i j : ι) (n m : ℕ) (owner : Option ℕ) :
    (w.setLock i n owner).locks j m = if i = j ∧ n = m then owner else w.locks j m := by
  show update w.locks i (update (w.locks i) n owner) j m = _
  by_cases hi : i = j
  · subst hi
    rw [update_self]
    by_cases hn : n = m
    · subst hn
      rw [update_self, if_pos ⟨rfl, rfl⟩]
    · rw [update_of_ne (Ne.symm hn), if_neg fun h => hn h.2]
  · rw [update_of_ne (Ne.symm hi), if_neg fun h => hi h.1]

/-- A lock passes as the places of an operation say. -/
theorem PresenceMoves.locks (hmove : PresenceMoves k w t w' t') (i : ι) (n : ℕ)
    (hin : t.holds i n = true → w.locks i n = some k) :
    ((t.holds i n = true ∨ w.locks i n = none)
        ∧ w'.locks i n = if t'.holds i n then some k else none) ∨
      (t.holds i n = false ∧ t'.holds i n = false ∧ w'.locks i n = w.locks i n) := by
  cases hmove with
  | sync j u hfree =>
    rw [locks_setLock]
    by_cases hkey : j = i ∧ stripe u = n
    · rw [if_pos hkey]
      refine .inl ⟨.inr ?_, ?_⟩
      · rw [← hkey.1, ← hkey.2]
        exact hfree
      · simp [PresenceTask.holds, hkey]
    · rw [if_neg hkey]
      exact .inr ⟨rfl, decide_eq_false hkey, rfl⟩
  | count j u =>
    by_cases hkey : j = i ∧ stripe u = n
    · refine .inl ⟨.inl (decide_eq_true hkey), ?_⟩
      rw [show (w.setInstance j _).locks i n = w.locks i n from rfl, hin (decide_eq_true hkey)]
      simp [PresenceTask.holds, hkey]
    · exact .inr ⟨decide_eq_false hkey, decide_eq_false hkey, rfl⟩
  | workspaces j u =>
    by_cases hkey : j = i ∧ stripe u = n
    · refine .inl ⟨.inl (decide_eq_true hkey), ?_⟩
      rw [hin (decide_eq_true hkey)]
      simp [PresenceTask.holds, hkey]
    · exact .inr ⟨decide_eq_false hkey, decide_eq_false hkey, rfl⟩
  | same j u | write j u =>
    rw [locks_setLock]
    by_cases hkey : j = i ∧ stripe u = n
    · rw [if_pos hkey]
      exact .inl ⟨.inl (decide_eq_true hkey), rfl⟩
    · rw [if_neg hkey]
      exact .inr ⟨decide_eq_false hkey, rfl, rfl⟩
  | _ => exact .inr ⟨rfl, rfl, rfl⟩

end Locks

/-! ## What is announced is written -/

section Runs

variable {ι : Type} [Fintype ι] [DecidableEq ι]
  {i : ι} {a : PresenceAction ι} {s : PresenceSystemState ι}

/-- An operation leaves the state and its announcement in step: fields that are
written again have the values that are written, and a field that changes the state
is written with somewhere to publish to. -/
def PresenceTask.Undisturbed (w : PresenceWorld ι) : PresenceTask ι → Prop
  | .rewrite i counts => ∀ u ∈ counts.keys, ∀ c ∈ counts.lookup u, w.hash u i = some c.active
  | .write i u counts announce =>
    presenceState (w.hash u) = presenceState (w.written i u counts) ∨ announce = true
  | _ => True

instance (w : PresenceWorld ι) (t : PresenceTask ι) : Decidable (t.Undisturbed w) := by
  unfold PresenceTask.Undisturbed
  split <;> infer_instance

/-- The operation that steps leaves the state and its announcement in step. -/
def StaysInStep (s : PresenceSystemState ι) : PresenceAction ι → Prop
  | .advance k _ => ∀ t ∈ s.tasks[k]?, t.Undisturbed s.world
  | _ => True

instance (s : PresenceSystemState ι) (a : PresenceAction ι) : Decidable (StaysInStep s a) := by
  unfold StaysInStep
  split <;> infer_instance

/-- **What holds in between**: the counts of a user are the announced ones, or
an operation will compare them; the field is what was announced last, or an
operation will write it; and the state is what was published last. -/
structure Tracked (s : PresenceSystemState ι) : Prop where
  numbered : ∀ i, (s.world.instances i).Numbered
  exclusive : ∀ i n, Threads.Exclusive (PresenceTask.holds i n) s.tasks (s.world.locks i n)
  counted : ∀ i u, (s.world.instances i).announcedCounts u = (s.world.instances i).counts u
    ∨ ∃ t ∈ s.tasks, t.Compares i u
  upToDate : ∀ t ∈ s.tasks, t.UpToDate s.world
  written : ∀ i u, s.world.hash u i = ((s.world.instances i).announcedCounts u).field
    ∨ ∃ t ∈ s.tasks, t.Writes i u
  told : ∀ u, (s.world.published u).getLast?.getD .offline = presenceState (s.world.hash u)

variable {k : ℕ} {w w' : PresenceWorld ι} {t t' : PresenceTask ι}

omit [Fintype ι] in
theorem instances_setInstance (i j : ι) (x : Instance) :
    (w.setInstance i x).instances j = if i = j then x else w.instances j := by
  show update w.instances i x j = _
  by_cases hi : i = j
  · subst hi
    rw [update_self, if_pos rfl]
  · rw [update_of_ne (Ne.symm hi), if_neg hi]

variable (hmove : PresenceMoves k w t w' t')
include hmove

/-- Only counting changes what is announced of a user. -/
theorem PresenceMoves.announced (i : ι) (u : Ulid) :
    (w'.instances i).announcedCounts u = (w.instances i).announcedCounts u ∨
      (t = .count i u ∧ t' = .workspaces i u ((w.instances i).counts u)
        ∧ (w'.instances i).announcedCounts u = (w.instances i).counts u) := by
  have hsame : ∀ (j : ι) (x : Instance), x.announced = (w.instances j).announced →
      ((w.setInstance j x).instances i).announcedCounts u = (w.instances i).announcedCounts u := by
    intro j x hx
    rw [instances_setInstance]
    split
    · next hj =>
      rw [Instance.announcedCounts, Instance.announcedCounts, hx, hj]
    · rfl
  cases hmove with
  | connect j | disconnect j | setActivity j => exact .inl (hsame j _ rfl)
  | count j v =>
    by_cases hj : j = i
    · subst hj
      by_cases hv : u = v
      · subst hv
        refine .inr ⟨rfl, rfl, ?_⟩
        rw [instances_setInstance, if_pos rfl]
        exact announcedCounts_announce
      · refine .inl ?_
        rw [instances_setInstance, if_pos rfl]
        exact announcedCounts_announce_of_ne hv _
    · refine .inl ?_
      rw [instances_setInstance, if_neg hj]
  | _ => exact .inl rfl

/-- The counts of a user change only with an operation that goes on to compare
them. -/
theorem PresenceMoves.counts (hnumbered : ∀ i, (w.instances i).Numbered) (i : ι) (u : Ulid) :
    (w'.instances i).counts u = (w.instances i).counts u ∨ t' = .sync i u := by
  cases hmove with
  | connect j v =>
    by_cases hkey : j = i ∧ u = v
    · obtain ⟨rfl, rfl⟩ := hkey
      exact .inr rfl
    · refine .inl ?_
      rw [instances_setInstance]
      split
      · next hj =>
        subst hj
        exact counts_connect (hnumbered j) fun hu => hkey ⟨rfl, hu⟩
      · rfl
  | disconnect j c =>
    by_cases hkey : j = i ∧ u = ((w.instances j).records c).userId
    · obtain ⟨rfl, rfl⟩ := hkey
      exact .inr rfl
    · refine .inl ?_
      rw [instances_setInstance]
      split
      · next hj =>
        subst hj
        exact counts_disconnect fun hu => hkey ⟨rfl, hu⟩
      · rfl
  | setActivity j c =>
    by_cases hkey : j = i ∧ u = ((w.instances j).records c).userId
    · obtain ⟨rfl, rfl⟩ := hkey
      exact .inr rfl
    · refine .inl ?_
      rw [instances_setInstance]
      split
      · next hj =>
        subst hj
        exact counts_setActivity fun hu => hkey ⟨rfl, hu⟩
      · rfl
  | count =>
    refine .inl ?_
    rw [instances_setInstance]
    split
    · next hj => rw [hj]; rfl
    · rfl
  | _ => exact .inl rfl

theorem PresenceMoves.numbered
    (hnumbered : ∀ i, (w.instances i).Numbered) (i : ι) : (w'.instances i).Numbered := by
  have hset : ∀ (j : ι) (x : Instance), (x.Numbered) →
      ((w.setInstance j x).instances i).Numbered := by
    intro j x hx
    rw [instances_setInstance]
    split
    · exact hx
    · exact hnumbered i
  cases hmove with
  | connect j => exact hset j _ (hnumbered j).connect
  | disconnect j => exact hset j _ fun d hd => hnumbered j d (Finset.mem_of_mem_erase hd)
  | setActivity j | count j => exact hset j _ (hnumbered j)
  | _ => exact hnumbered i

/-- A field that an undisturbed step changes is written as announced, and nothing
else about it is to be written by the operation. -/
theorem PresenceMoves.hash (hquiet : t.Undisturbed w)
    (i : ι) (u : Ulid) : w'.hash u i = w.hash u i ∨
      ∃ counts announce, t = .write i u counts announce ∧ w'.hash u i = counts.field := by
  cases hmove with
  | write j v counts announce =>
    show update w.hash v (w.written j v counts) u i = _ ∨ _
    by_cases hv : u = v
    · subst hv
      by_cases hj : i = j
      · subst hj
        refine .inr ⟨counts, announce, rfl, ?_⟩
        show update w.hash u (w.written i u counts) u i = _
        rw [update_self]
        exact update_self _ _ _
      · refine .inl ?_
        rw [update_self]
        exact update_of_ne hj _ _
    · rw [update_of_ne hv]
      exact .inl rfl
  | rewrite j counts =>
    refine .inl ?_
    cases hc : counts.lookup u with
    | none => simp only [PresenceWorld.refreshScript, hc]
    | some c =>
      simp only [PresenceWorld.refreshScript, hc]
      by_cases hj : i = j
      · subst hj
        rw [update_self]
        have hmem : u ∈ counts.keys := Finmap.mem_keys.mpr (Finmap.mem_iff.mpr ⟨c, hc⟩)
        exact (hquiet u hmem c hc).symm
      · rw [update_of_ne hj]
  | _ => exact .inl rfl

/-- An undisturbed step publishes what the state becomes. -/
theorem PresenceMoves.told (hquiet : t.Undisturbed w)
    (u : Ulid) (htold : (w.published u).getLast?.getD .offline = presenceState (w.hash u)) :
    (w'.published u).getLast?.getD .offline = presenceState (w'.hash u) := by
  have hhash := hmove.hash hquiet
  cases hmove with
  | write j v counts announce =>
    show ((if _ then _ else _ : Ulid → List PresenceState) u).getLast?.getD _
      = presenceState (update w.hash v (w.written j v counts) u)
    by_cases hv : u = v
    · subst hv
      rw [update_self]
      by_cases hchange : presenceState (w.hash u) = presenceState (w.written j u counts)
      · rw [if_neg fun hboth => hboth.1 hchange, htold, hchange]
      · have hannounce : announce = true := hquiet.resolve_left hchange
        rw [if_pos ⟨hchange, hannounce⟩, update_self, getLast?_concat]
        rfl
    · rw [update_of_ne hv]
      split
      · rw [update_of_ne hv]
        exact htold
      · exact htold
  | rewrite j counts =>
    have hsame : (w.refreshScript j counts).hash u = w.hash u := by
      funext i
      rcases hhash i u with heq | ⟨c, announce, hwrite, -⟩
      · exact heq
      · cases hwrite
    rw [hsame]
    exact htold
  | _ => exact htold

/-- Who compares goes on to be done or to write. -/
theorem PresenceMoves.compares {u : Ulid} (ht : t.Compares i u) : t'.Compares i u ∨
      (w'.instances i).announcedCounts u = (w'.instances i).counts u := by
  cases hmove with
  | sync => exact .inl ht
  | same _ _ hsame =>
    obtain ⟨rfl, rfl⟩ := ht
    exact .inr hsame.symm
  | count =>
    obtain ⟨rfl, rfl⟩ := ht
    refine .inr ?_
    rw [instances_setInstance, if_pos rfl, announcedCounts_announce]
    rfl
  | _ => exact False.elim ht

/-- Who writes goes on to write or has written. -/
theorem PresenceMoves.writes {u : Ulid} (ht : t.Writes i u) : t'.Writes i u ∨
      ∃ counts announce, t = .write i u counts announce ∧ w'.hash u i = counts.field := by
  cases hmove with
  | workspaces => exact .inl ht
  | write j v counts announce =>
    obtain ⟨rfl, rfl⟩ := ht
    refine .inr ⟨counts, announce, rfl, ?_⟩
    show update w.hash v (w.written j v counts) v j = _
    rw [update_self]
    exact update_self _ _ _
  | _ => exact False.elim ht

theorem PresenceMoves.upToDate (ht : t.UpToDate w) : t'.UpToDate w' := by
  cases hmove with
  | count j v =>
    show (w.instances j).counts v = ((w.setInstance j _).instances j).announcedCounts v
    rw [instances_setInstance, if_pos rfl, announcedCounts_announce]
  | workspaces => exact ht
  | _ => trivial

omit hmove

omit [Fintype ι] in
/-- Where an operation begins it holds no lock and has nothing to write. -/
theorem PresenceAction.start_plain (ht : a.start = some t) :
    (∀ i n, t.holds i n = false) ∧ t.UpToDate w := by
  cases a with
  | advance => exact absurd ht (by simp [PresenceAction.start])
  | _ =>
    cases ht
    exact ⟨fun _ _ => rfl, trivial⟩

/-- **Every undisturbed step keeps track.** -/
theorem Tracked.step {s' : PresenceSystemState ι} (h : Tracked s)
    (hP : StaysInStep s a) (hs : s.step a = some s') : Tracked s' := by
  cases presenceHappens_of_step hs with
  | @begins _ t ht =>
    have hplain := PresenceAction.start_plain (w := s.world) ht
    refine ⟨h.numbered, fun i n => (h.exclusive i n).append_one (hplain.1 i n), fun i u => ?_,
      fun v hv => ?_, fun i u => ?_, h.told⟩
    · exact (h.counted i u).imp_right fun ⟨v, hv, hcompares⟩ =>
        ⟨v, mem_append_left _ hv, hcompares⟩
    · rcases mem_append.mp hv with hv | hv
      · exact h.upToDate v hv
      · rw [mem_singleton.mp hv]
        exact hplain.2
    · exact (h.written i u).imp_right fun ⟨v, hv, hwrites⟩ =>
        ⟨v, mem_append_left _ hv, hwrites⟩
  | @advances k ok t t' w ht hmove =>
    have hmem := mem_of_getElem? ht
    have hquiet : t.Undisturbed s.world := hP t ht
    have hset := Threads.getElem?_set ht t'
    have hself : t' ∈ s.tasks.set k t' :=
      mem_of_getElem? ((hset k).trans (if_pos rfl))
    have hother : ∀ v ∈ s.tasks, v ≠ t → v ∈ s.tasks.set k t' := by
      intro v hv hne
      obtain ⟨j, hj⟩ := mem_iff_getElem?.mp hv
      have hkj : k ≠ j := by
        rintro rfl
        exact hne (some.inj (hj.symm.trans ht))
      exact mem_of_getElem? ((hset j).trans ((if_neg hkj).trans hj))
    refine ⟨hmove.numbered h.numbered, fun i n => ?_, fun i u => ?_, fun v hv => ?_,
      fun i u => ?_, fun u => hmove.told hquiet u (h.told u)⟩
    · show Threads.Exclusive _ _ (w.locks i n)
      rcases hmove.locks i n ((h.exclusive i n).iff ht).mp with ⟨hturn, hw⟩ | ⟨hout, hout', hw⟩
      · rw [hw]
        exact (h.exclusive i n).turn ht hturn t'
      · rw [hw]
        exact (h.exclusive i n).outside ht hout hout'
    · rcases hmove.counts h.numbered i u with hcounts | rfl
      · rcases hmove.announced i u with hann | ⟨-, -, hann⟩
        · rcases h.counted i u with heq | ⟨v, hv, hcompares⟩
          · exact .inl ((hann.trans heq).trans hcounts.symm)
          · by_cases hvt : v = t
            · subst hvt
              rcases hmove.compares hcompares with hnext | heq
              · exact .inr ⟨t', hself, hnext⟩
              · exact .inl heq
            · exact .inr ⟨v, hother v hv hvt, hcompares⟩
        · exact .inl (hann.trans hcounts.symm)
      · exact .inr ⟨_, hself, ⟨rfl, rfl⟩⟩
    · obtain ⟨j, hj⟩ := mem_iff_getElem?.mp hv
      rw [hset j] at hj
      by_cases hkj : k = j
      · rw [if_pos hkj] at hj
        cases hj
        exact hmove.upToDate (h.upToDate t hmem)
      · rw [if_neg hkj] at hj
        have hold := h.upToDate v (mem_of_getElem? hj)
        -- who is about to write holds the lock, so nobody else counts
        have hann : ∀ i u, v.holds i (stripe u) = true →
            (w.instances i).announcedCounts u = (s.world.instances i).announcedCounts u := by
          intro i u hholds
          refine (hmove.announced i u).resolve_right fun ⟨hcount, _⟩ => hkj ?_
          subst hcount
          exact (h.exclusive i (stripe u)).unique ht hj (decide_eq_true ⟨rfl, rfl⟩) hholds
        cases v with
        | workspaces i u | write i u =>
          exact Eq.trans hold (hann i u (decide_eq_true ⟨rfl, rfl⟩)).symm
        | _ => trivial
    · have hdone : ∀ counts announce, t = .write i u counts announce → w.hash u i = counts.field →
          (w.instances i).announcedCounts u = (s.world.instances i).announcedCounts u →
          w.hash u i = ((w.instances i).announcedCounts u).field := by
        rintro counts announce rfl hhash hann
        have hcounts : counts = (s.world.instances i).announcedCounts u := h.upToDate _ hmem
        rw [hhash, hann, hcounts]
      rcases hmove.announced i u with hann | ⟨-, rfl, -⟩
      · rcases hmove.hash hquiet i u with hhash | ⟨counts, announce, hwrite, hhash⟩
        · rcases h.written i u with heq | ⟨v, hv, hwrites⟩
          · refine .inl ?_
            show w.hash u i = ((w.instances i).announcedCounts u).field
            rw [hhash, hann]
            exact heq
          · by_cases hvt : v = t
            · subst hvt
              rcases hmove.writes hwrites with hnext | ⟨counts, announce, hwrite, hfield⟩
              · exact .inr ⟨t', hself, hnext⟩
              · exact .inl (hdone counts announce hwrite hfield hann)
            · exact .inr ⟨v, hother v hv hvt, hwrites⟩
        · exact .inl (hdone counts announce hwrite hhash hann)
      · exact .inr ⟨_, hself, ⟨rfl, rfl⟩⟩

theorem tracked_new : Tracked (PresenceSystemState.new : PresenceSystemState ι) := by
  refine ⟨fun i c hc => absurd hc (Finset.notMem_empty c), fun i n j => ?_, fun i u => Or.inl ?_,
    fun t ht => absurd ht not_mem_nil, fun i u => Or.inl ?_, fun u => ?_⟩
  · show (none : Option (PresenceTask ι)).any _ = true ↔ (none : Option ℕ) = some j
    simp
  · show ((∅ : Finmap fun _ : Ulid => PresenceCounts).lookup u).getD ⟨0, 0⟩ = _
    rw [Finmap.lookup_empty]
    rfl
  · show none = (((∅ : Finmap fun _ : Ulid => PresenceCounts).lookup u).getD ⟨0, 0⟩).field
    rw [Finmap.lookup_empty]
    rfl
  · show PresenceState.offline = presenceState fun _ => none
    rw [presenceState, if_pos fun _ => rfl]

theorem tracked_of_reachableBy (h : (presenceSystem ι).ReachableBy StaysInStep s) : Tracked s :=
  h.invariant (fun s (hinit : s = _) => hinit ▸ tracked_new) fun _ _ _ htracked hP hs =>
    htracked.step hP hs

end Runs

section Truth

variable {ι : Type} [Fintype ι] [DecidableEq ι]

/-- **A user's true state**: offline without a connection on any instance,
active with one that is looked at, and idle otherwise. -/
def PresenceWorld.truth (w : PresenceWorld ι) (u : Ulid) : PresenceState :=
  if ∀ i, (w.instances i).connections u = ∅ then .offline
  else if ∃ i, ∃ c ∈ (w.instances i).connections u, ((w.instances i).records c).active = true then
    .active
  else .idle

omit [DecidableEq ι] in
/-- The fields that the counts of the instances make say the true state. -/
theorem presenceState_of_fields {w : PresenceWorld ι} {u : Ulid}
    (h : ∀ i, w.hash u i = ((w.instances i).counts u).field) :
    presenceState (w.hash u) = w.truth u := by
  have hconns : ∀ i, w.hash u i = none ↔ (w.instances i).connections u = ∅ := by
    intro i
    rw [h i, PresenceCounts.field, ← Finset.card_eq_zero]
    show (if 0 < ((w.instances i).connections u).card then _ else _) = none ↔ _
    split
    · next hpos => exact iff_of_false (by simp) (Nat.ne_of_gt hpos)
    · next hzero => exact iff_of_true rfl (Nat.eq_zero_of_not_pos hzero)
  have hactive : ∀ i, 0 < (w.hash u i).getD 0 ↔
      ∃ c ∈ (w.instances i).connections u, ((w.instances i).records c).active = true := by
    intro i
    rw [h i, PresenceCounts.field]
    have hcard : 0 < ((w.instances i).counts u).active ↔
        ∃ c ∈ (w.instances i).connections u, ((w.instances i).records c).active = true := by
      show 0 < (Finset.filter _ _).card ↔ _
      rw [Finset.card_pos]
      exact Finset.filter_nonempty_iff
    split
    · exact hcard
    · next hzero =>
      have hcounts := counts_eq_zero hzero
      rw [hcounts] at hcard
      exact hcard
  unfold presenceState PresenceWorld.truth
  simp only [hconns, hactive]

/-- **Presence converges.** In every run in which fields that are written again
have the values that are written, and a field that changes the state is written with
somewhere to publish to: when no operation is in progress, the hash of every user
has the field of every instance as its connections are; the state that the hash says
is the true one; and what was published last is this state, which is offline where
nothing was published. -/
theorem presence_converges {s : PresenceSystemState ι}
    (h : (presenceSystem ι).ReachableBy StaysInStep s)
    (hrest : ∀ t ∈ s.tasks, t.isDone = true) (u : Ulid) :
    (∀ i, s.world.hash u i = ((s.world.instances i).counts u).field) ∧
      presenceState (s.world.hash u) = s.world.truth u ∧
      (∀ st ∈ (s.world.published u).getLast?, st = s.world.truth u) ∧
      (s.world.published u = [] → s.world.truth u = .offline) := by
  have htracked := tracked_of_reachableBy h
  have hidle : ∀ t ∈ s.tasks, t = .done := fun t ht => by
    have hdone := hrest t ht
    cases t <;> first | rfl | exact absurd hdone (by simp [PresenceTask.isDone])
  have hhash : ∀ i, s.world.hash u i = ((s.world.instances i).counts u).field := by
    intro i
    have hwritten := (htracked.written i u).resolve_right fun ⟨t, ht, hwrites⟩ => by
      rw [hidle t ht] at hwrites
      exact hwrites
    have hcounted := (htracked.counted i u).resolve_right fun ⟨t, ht, hcompares⟩ => by
      rw [hidle t ht] at hcompares
      exact hcompares
    rw [hwritten, hcounted]
  have htruth := presenceState_of_fields hhash
  have htold := (htracked.told u).trans htruth
  refine ⟨hhash, htruth, fun st hst => ?_, fun hempty => ?_⟩
  · rw [mem_def.mp hst] at htold
    exact htold
  · rw [hempty] at htold
    exact htold.symm

end Truth

/-! ## A user on two instances -/

/-- An operation runs to its end. -/
def runsThrough (k n : ℕ) : List (PresenceAction (Fin 2)) :=
  List.replicate n (.advance k true)

/-- A user connects to two instances and looks at the second; the first writes its
fields again, and loses the connection. -/
theorem converges_to_active : ∃ s : PresenceSystemState (Fin 2),
    presenceState (s.world.hash 7) = .active ∧ s.world.truth 7 = .active := by
  have hrun : ((presenceSystem (Fin 2)).runBy StaysInStep PresenceSystemState.new
      ([.connect 0 7] ++ runsThrough 0 5 ++ [.connect 1 7] ++ runsThrough 1 5
        ++ [.setActivity 1 0 true] ++ runsThrough 2 5 ++ [.refresh 0] ++ runsThrough 3 2
        ++ [.disconnect 0 0] ++ runsThrough 4 5)).any (fun s =>
      decide ((∀ t ∈ s.tasks, t.isDone = true) ∧ s.world.truth 7 = .active)) = true := by
    decide +kernel
  obtain ⟨s, hreach, htest⟩ := TransitionSystem.exists_of_runBy hrun rfl
  obtain ⟨hrest, htruth⟩ := of_decide_eq_true htest
  have hboth := presence_converges hreach hrest 7
  exact ⟨s, hboth.2.1.trans htruth, htruth⟩

/-- **A ghost comes back.** An instance reads whose fields to write again; a
user's only connection is gone, which is written and published; then the fields are
written. No operation is in progress, the user has no connection, and the hash
says that the user is idle. -/
theorem ghost_comes_back : ∃ s, (presenceSystem (Fin 2)).Reachable s ∧
    (∀ t ∈ s.tasks, t.isDone = true) ∧ s.world.truth 7 = .offline ∧
    s.world.published 7 = [.idle, .offline] ∧ s.world.hash 7 0 = some 0 ∧
    presenceState (s.world.hash 7) = .idle := by
  have hrun : ((presenceSystem (Fin 2)).run PresenceSystemState.new
      ([.connect 0 7] ++ runsThrough 0 5 ++ [.refresh 0] ++ runsThrough 1 1
        ++ [.disconnect 0 0] ++ runsThrough 2 5 ++ runsThrough 1 1)).any (fun s =>
      decide ((∀ t ∈ s.tasks, t.isDone = true) ∧ s.world.truth 7 = .offline ∧
        s.world.published 7 = [.idle, .offline] ∧ s.world.hash 7 0 = some 0 ∧
        presenceState (s.world.hash 7) = .idle)) = true := by
    decide +kernel
  obtain ⟨s, hreach, htest⟩ := TransitionSystem.exists_of_run hrun rfl
  exact ⟨s, hreach, of_decide_eq_true htest⟩

end Hibari
