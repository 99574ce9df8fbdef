import Hibari.HuddleMarks
import Hibari.Huddles

/-!
# Reading huddles

What a room shows of its huddle is read with three commands: who is in it, who
said to join soon, and the version. They go to Redis in one pipeline, which is one
round trip and not one step: scripts of others run in between. A client keeps, of
two states of one huddle, the one with the larger version (`newerHuddle`), so a
version has to say who is in the huddle.

It does where no script changes who is in a huddle between the reading of its
participations and the reading of its version (`snapshots_agree`). Otherwise those
who were there before are read with the version of those who are there now, and a
client that gets this first drops the state that is right
(`stale_participants_stay`).
-/

namespace Hibari

open List Function

/-! ## What is read -/

/-- The state of a huddle as it was read. -/
structure HuddleSnapshot where
  huddleId : Ulid
  version : ℕ
  participants : List Participation
  joiningSoon : List Ulid
  deriving DecidableEq

/-- Who came first, and of those who came at once, whose number is smaller. -/
def byJoined (a b : Participation) : Prop :=
  a.joinedAt < b.joinedAt ∨ a.joinedAt = b.joinedAt ∧ a.id ≤ b.id

instance : DecidableRel byJoined := fun a b => by
  unfold byJoined
  infer_instance

/-- The participations of a hash, in the order in which they came. -/
def inOrder (members : AList (fun _ : Ulid => Participation)) : List Participation :=
  (members.entries.map (fun e => e.2)).insertionSort byJoined

/-- The order of who joins soon: by time, and then by user. -/
def bySoon (a b : ℕ × Ulid) : Prop := a.1 < b.1 ∨ a.1 = b.1 ∧ a.2 ≤ b.2

instance : DecidableRel bySoon := fun a b => by
  unfold bySoon
  infer_instance

namespace HuddleRedis

/-- Who is in a huddle. -/
def participants (s : HuddleRedis) (huddle : Ulid) : List Participation :=
  inOrder (s.members huddle)

/-- Who said to join soon, and whose time is not over. -/
def soonAfter (s : HuddleRedis) (huddle : Ulid) (now : ℕ) : List Ulid :=
  ((((s.soon huddle).entries.filter (fun e => decide (now < e.2))).map
    (fun e => (e.2, e.1))).insertionSort bySoon).map Prod.snd

end HuddleRedis

/-- The state of a huddle from what the three commands gave. Who is in the huddle does
not join soon. -/
def huddleSnapshot (huddle : Ulid) (members : AList (fun _ : Ulid => Participation))
    (soon : List Ulid) (version : ℕ) : HuddleSnapshot where
  huddleId := huddle
  version := version
  participants := inOrder members
  joiningSoon := soon.filter (fun u => decide (u ∉ (inOrder members).map Participation.userId))

/-- The first participation of each user, as a room shows it. -/
def shown (seen : List Ulid) : List Participation → List HuddleParticipant
  | [] => []
  | p :: ps =>
    if p.userId ∈ seen then shown seen ps
    else ⟨p.userId, p.muted, decide (p.cameraMid ≠ ""), decide (p.screenMid ≠ "")⟩
      :: shown (p.userId :: seen) ps

/-- **What a room shows of its huddle.** -/
def roomHuddle (roomId messageId : Ulid) (startedAt : DateTime) (snap : HuddleSnapshot) :
    RoomHuddle where
  id := snap.huddleId
  roomId := roomId
  messageId := messageId
  startedAt := startedAt
  version := snap.version
  participants := shown [] snap.participants
  joiningSoon := snap.joiningSoon

/-! ## Pipelines -/

/-- How far the commands of a huddle are: the participations were read, or also who
joins soon. -/
inductive HuddleReading
  | members (huddle : Ulid) (members : AList (fun _ : Ulid => Participation))
  | soon (huddle : Ulid) (members : AList (fun _ : Ulid => Participation)) (soon : List Ulid)

/-- The huddle that is being read. -/
def HuddleReading.huddle : HuddleReading → Ulid
  | .members huddle _ => huddle
  | .soon huddle _ _ => huddle

/-- Who was in it. -/
def HuddleReading.read : HuddleReading → AList (fun _ : Ulid => Participation)
  | .members _ read => read
  | .soon _ read _ => read

/-- A pipeline: the huddles that were not read yet, the one that is being read, and
what was read. -/
structure Snapshots where
  now : ℕ
  waiting : List Ulid
  reading : Option HuddleReading
  snaps : List HuddleSnapshot

/-- **One command of a pipeline.** -/
def Snapshots.command (t : Snapshots) (s : HuddleRedis) : Option Snapshots :=
  match t.reading with
  | none =>
    match t.waiting with
    | [] => none
    | huddle :: waiting =>
      some { t with
        waiting := waiting
        reading := some (.members huddle (s.members huddle)) }
  | some (.members huddle members) =>
    some { t with reading := some (.soon huddle members (s.soonAfter huddle t.now)) }
  | some (.soon huddle members soon) =>
    some { t with
      reading := none
      snaps := t.snaps ++ [huddleSnapshot huddle members soon (s.versions huddle)] }

/-- Redis, what it was like so far, and the pipelines. -/
structure HuddleReads where
  store : HuddleRedis
  past : List HuddleRedis
  pipelines : List Snapshots

/-- What happens: a script runs, somebody reads huddles, and a command of a pipeline
runs. -/
inductive HuddleReadsAction
  | script (c : HuddleCall)
  | snapshots (huddleIds : List Ulid) (now : ℕ)
  | command (i : ℕ)

/-- One step. -/
def HuddleReads.step (s : HuddleReads) : HuddleReadsAction → Option HuddleReads
  | .script c =>
    some { s with
      store := s.store.call c
      past := s.past ++ [s.store.call c] }
  | .snapshots huddleIds now =>
    some { s with pipelines := s.pipelines ++ [⟨now, huddleIds, none, []⟩] }
  | .command i =>
    match s.pipelines[i]? with
    | none => none
    | some t =>
      match t.command s.store with
      | none => none
      | some t' => some { s with pipelines := s.pipelines.set i t' }

/-- **Scripts and pipelines**, from Redis without huddles. -/
def huddleReads : TransitionSystem HuddleReads HuddleReadsAction where
  init s := s.store = .empty ∧ s.past = [.empty] ∧ s.pipelines = []
  step := HuddleReads.step

/-- What was read in a run. -/
def HuddleReads.taken (s : HuddleReads) : List HuddleSnapshot := s.pipelines.flatMap Snapshots.snaps

/-- A script does not end a huddle, and leaves those in a huddle that is being read as
they are. -/
def LeavesReadAlone (s : HuddleReads) : HuddleReadsAction → Prop
  | .script (.clear _) => False
  | .script c => ∀ t ∈ s.pipelines, ∀ r ∈ t.reading,
      ((s.store.call c).members r.huddle).entries.Perm (s.store.members r.huddle).entries
  | _ => True

instance (s : HuddleReads) (a : HuddleReadsAction) : Decidable (LeavesReadAlone s a) := by
  unfold LeavesReadAlone
  split <;> infer_instance

/-! ## What a version says -/

namespace HuddleRedis

/-- Participations are kept under their numbers. -/
def Named (s : HuddleRedis) : Prop :=
  ∀ h p r, (s.members h).lookup p = some r → r.id = p

/-- **Versions only grow, and a version says who is in the huddle.** -/
structure Follows (s s' : HuddleRedis) : Prop where
  named : s.Named → s'.Named
  le : ∀ h, s.versions h ≤ s'.versions h
  same : ∀ h, s'.versions h = s.versions h → (s'.members h).entries.Perm (s.members h).entries

variable {s s' s'' : HuddleRedis}

theorem Follows.of_same (hmembers : s'.members = s.members) (hversions : s'.versions = s.versions) :
    Follows s s' where
  named := fun hnamed h p r hr => hnamed h p r (by rwa [hmembers] at hr)
  le := fun h => by rw [hversions]
  same := fun h _ => by rw [hmembers]

theorem Follows.refl (s : HuddleRedis) : Follows s s := Follows.of_same rfl rfl

theorem Follows.trans (h : Follows s s') (h' : Follows s' s'') : Follows s s'' where
  named := fun hnamed => h'.named (h.named hnamed)
  le := fun huddle => (h.le huddle).trans (h'.le huddle)
  same := fun huddle heq => by
    have hle := h.le huddle
    have hle' := h'.le huddle
    have hfirst : s'.versions huddle = s.versions huddle := by omega
    have hsecond : s''.versions huddle = s'.versions huddle := by omega
    exact (h'.same huddle hsecond).trans (h.same huddle hfirst)

/-- Who is in one huddle changes, and the version of it grows. -/
theorem Follows.incr {h₀ : Ulid} (helse : ∀ h, h ≠ h₀ → s'.members h = s.members h)
    (hversions : s'.versions = s.versions) (hnamed : s.Named → s'.Named) :
    Follows s (s'.incr h₀) where
  named := hnamed
  le := fun h => by
    show s.versions h ≤ update s'.versions h₀ (s'.versions h₀ + 1) h
    rw [hversions]
    by_cases hh : h = h₀
    · rw [hh, update_self]
      exact Nat.le_succ _
    · rw [update_of_ne hh]
  same := fun h heq => by
    change update s'.versions h₀ (s'.versions h₀ + 1) h = s.versions h at heq
    show (s'.members h).entries.Perm (s.members h).entries
    by_cases hh : h = h₀
    · rw [hh, update_self, hversions] at heq
      exact absurd heq (Nat.succ_ne_self _)
    · rw [helse h hh]

theorem Named.delMember (hnamed : s.Named) (h p : Ulid) : (s.delMember h p).Named := by
  intro h' p' r hr
  rw [lookup_delMember] at hr
  split at hr
  · cases hr
  · exact hnamed h' p' r hr

theorem follows_statusOff (s : HuddleRedis) (u : Ulid) : Follows s (s.statusOff u) := by
  rw [statusOff_eq]
  exact Follows.of_same rfl rfl

/-- What is left of the participations, keys and marks aside. -/
theorem follows_remove (s : HuddleRedis) (h p : Ulid) (moving : Bool) :
    Follows s (s.remove h p moving).1 := by
  unfold remove
  split
  · exact Follows.refl s
  · next r hr =>
    let s₁ := s.delMember h p
    have hrest : ∀ s₂ : HuddleRedis, s₂.members = s₁.members → s₂.versions = s.versions →
        Follows s (s₂.incr h) := by
      intro s₂ hmembers hversions
      refine Follows.incr (fun h' hh => ?_) hversions fun hnamed h' p' r' hr' => ?_
      · rw [hmembers]
        exact update_of_ne hh _ _
      · rw [hmembers] at hr'
        exact hnamed.delMember h p h' p' r' hr'
    refine hrest _ ?_ ?_
    · split_ifs
      · rfl
      · rw [statusOff_eq]
        rfl
      · rfl
    · split_ifs
      · rfl
      · rw [statusOff_eq]
        rfl
      · rfl

theorem follows_enter (s : HuddleRedis) (p : Participation) (deadline : ℕ) :
    Follows s (s.enter p deadline) := by
  refine Follows.incr (fun h hh => update_of_ne hh _ _) rfl fun hnamed h' p' r hr => ?_
  change ((s.enter p deadline).members h').lookup p' = some r at hr
  rw [lookup_enter] at hr
  split at hr
  · next heq => rw [heq.2, Option.some.inj hr]
  · exact hnamed h' p' r hr

theorem follows_join (s : HuddleRedis) (p : Participation) (deadline limit : ℕ)
    (status : HuddleStatus) : Follows s (s.join p deadline limit status).1 := by
  unfold join
  split
  · exact Follows.refl s
  · have hevict : Follows s (s.evict p.userId).1 := by
      unfold evict
      split
      · exact Follows.refl s
      · exact follows_remove s _ _ true
    have hleave : ∀ t : HuddleRedis, Follows t (t.leaveOther p.userId status.workspaceId) := by
      intro t
      unfold leaveOther
      split
      · exact Follows.refl t
      · split
        · exact follows_statusOff t _
        · exact Follows.refl t
    have hmark : ∀ t : HuddleRedis, Follows t (t.mark p.userId status) := by
      intro t
      rw [mark_eq]
      exact Follows.of_same rfl rfl
    exact ((hevict.trans (follows_enter _ p deadline)).trans (hleave _)).trans (hmark _)

theorem follows_sweepOne (out : HuddleRedis × List (Participation × ℕ × ℕ)) (e : Ulid × Ulid) :
    Follows out.1 (sweepOne out e).1 := by
  have hremove := follows_remove out.1 e.1 e.2 false
  unfold sweepOne
  split
  · next heq => rwa [heq] at hremove
  · next heq =>
    rw [heq] at hremove
    exact hremove.trans (Follows.of_same rfl rfl)

theorem follows_sweep (s : HuddleRedis) (now max : ℕ) : Follows s (s.sweep now max).1 := by
  have hfold : ∀ (es : List (Ulid × Ulid)) (out : HuddleRedis × List (Participation × ℕ × ℕ)),
      Follows out.1 (es.foldl sweepOne out).1 := by
    intro es
    induction es with
    | nil => exact fun out => Follows.refl out.1
    | cons e _ ih => exact fun out => (follows_sweepOne out e).trans (ih (sweepOne out e))
  exact hfold (s.expired now max) (s, [])

theorem follows_setMember (s : HuddleRedis) {h p : Ulid} {r r' : Participation}
    (hr : (s.members h).lookup p = some r) (hid : r'.id = r.id) :
    Follows s (s.setMember h p r') := by
  refine Follows.incr (fun h' hh => update_of_ne hh _ _) rfl fun hnamed h' p' r₀ hr₀ => ?_
  change (update s.members h ((s.members h).insert p r') h').lookup p' = some r₀ at hr₀
  by_cases hh : h' = h
  · subst hh
    rw [update_self] at hr₀
    by_cases hp : p' = p
    · rw [hp, AList.lookup_insert] at hr₀
      rw [← Option.some.inj hr₀, hid, hp]
      exact hnamed h' p r hr
    · rw [AList.lookup_insert_ne hp] at hr₀
      exact hnamed h' p' r₀ hr₀
  · rw [update_of_ne hh] at hr₀
    exact hnamed h' p' r₀ hr₀

/-- **A script that does not end a huddle.** -/
theorem follows_call (s : HuddleRedis) {c : HuddleCall} (hc : ∀ h, c ≠ .clear h) :
    Follows s (s.call c) := by
  cases c with
  | join p deadline limit status => exact follows_join s p deadline limit status
  | heartbeat user huddle participant deadline =>
    show Follows s (s.heartbeat user huddle participant deadline).1
    unfold heartbeat
    split
    · exact Follows.of_same rfl rfl
    · exact Follows.refl s
  | remove huddle participant => exact follows_remove s huddle participant false
  | sweep now max => exact follows_sweep s now max
  | setMuted huddle participant muted =>
    show Follows s (s.setMuted huddle participant muted).1
    unfold setMuted
    split
    · exact Follows.refl s
    · next r hr => exact follows_setMember s hr rfl
  | setTrack huddle participant kind mid screenLimit =>
    show Follows s (s.setTrack huddle participant kind mid screenLimit).1
    unfold setTrack
    split
    · exact Follows.refl s
    · next r hr =>
      split_ifs
      · exact Follows.refl s
      · exact Follows.refl s
      · refine follows_setMember s hr ?_
        cases kind with
        | _ => rfl
  | joiningSoon => exact Follows.incr (fun _ _ => rfl) rfl id
  | clear huddle => exact absurd rfl (hc huddle)

end HuddleRedis

/-! ## Who is in a huddle, in order -/

instance : Std.Total byJoined := ⟨fun a b => by
  unfold byJoined
  rcases lt_trichotomy a.joinedAt b.joinedAt with hlt | heq | hgt
  · exact Or.inl (Or.inl hlt)
  · exact (le_total a.id b.id).imp (fun hle => Or.inr ⟨heq, hle⟩) fun hle => Or.inr ⟨heq.symm, hle⟩
  · exact Or.inr (Or.inl hgt)⟩

instance : IsTrans Participation byJoined := ⟨fun a b c hab hbc => by
  unfold byJoined at hab hbc ⊢
  rcases hab with hab | ⟨hab, hid⟩
  · exact Or.inl (hbc.elim (lt_trans hab) fun heq => heq.1 ▸ hab)
  · rw [hab]
    exact hbc.imp_right fun heq => ⟨heq.1, hid.trans heq.2⟩⟩

/-- **The order does not depend on how Redis keeps the hash**: numbers are all
different. -/
theorem inOrder_congr {m m' : AList (fun _ : Ulid => Participation)}
    (hperm : m.entries.Perm m'.entries) (hnamed : ∀ p r, m.lookup p = some r → r.id = p) :
    inOrder m = inOrder m' := by
  have hvalues := hperm.map (fun e => e.2)
  have hsorted : (inOrder m).Perm (inOrder m') :=
    ((perm_insertionSort byJoined _).trans hvalues).trans (perm_insertionSort byJoined _).symm
  refine List.Perm.eq_of_pairwise (fun a b ha hb hab hba => ?_)
    (pairwise_insertionSort byJoined _) (pairwise_insertionSort byJoined _) hsorted
  -- both are in the hash, under the same number
  have hmem : ∀ r ∈ inOrder m, m.lookup r.id = some r := by
    intro r hr
    obtain ⟨e, he, hre⟩ := mem_map.mp ((mem_insertionSort byJoined).mp hr)
    have hlookup : m.lookup e.1 = some r := by
      rw [← hre]
      exact AList.mem_lookup_iff.mpr he
    rw [hnamed e.1 r hlookup]
    exact hlookup
  have hid : a.id = b.id := by
    rcases hab with hab | ⟨heq, hab⟩
    · exact absurd hab (hba.elim not_lt_of_gt fun heq => heq.1.not_gt)
    · exact le_antisymm hab (hba.elim (fun hlt => absurd heq hlt.ne') And.right)
  have hsame := hmem b (hsorted.mem_iff.mpr hb)
  rw [← hid, hmem a ha] at hsame
  exact Option.some.inj hsame

/-! ## What a client keeps -/

/-- **Of states of one huddle, a client keeps one with the largest version.** -/
theorem foldl_newerHuddle_largest (l : List RoomHuddle) (old : RoomHuddle)
    (hsame : ∀ x ∈ l, x.id = old.id) :
    ∃ r, (l.map some).foldl newerHuddle (some old) = some r ∧ r ∈ old :: l ∧
      ∀ x ∈ old :: l, x.version ≤ r.version := by
  induction l generalizing old with
  | nil => exact ⟨old, rfl, .head _, fun x hx => (mem_singleton.mp hx) ▸ le_rfl⟩
  | cons x l ih =>
    have hid : x.id = old.id := hsame x (.head _)
    have hrest : ∀ y ∈ l, y.id = old.id := fun y hy => hsame y (mem_cons_of_mem x hy)
    show ∃ r, (l.map some).foldl newerHuddle (newerHuddle (some old) (some x)) = some r ∧ _
    by_cases hle : x.version ≤ old.version
    · have hkeep : newerHuddle (some old) (some x) = some old := by
        simp only [newerHuddle]
        rw [if_pos ⟨hid.symm, hle⟩]
      obtain ⟨r, hr, hmem, hlargest⟩ := ih old hrest
      rw [hkeep]
      refine ⟨r, hr, ?_, fun y hy => ?_⟩
      · rcases mem_cons.mp hmem with rfl | hl
        · exact .head _
        · exact .tail _ (.tail _ hl)
      · rcases mem_cons.mp hy with rfl | hy
        · exact hlargest y (.head _)
        · rcases mem_cons.mp hy with rfl | hy
          · exact hle.trans (hlargest old (.head _))
          · exact hlargest y (.tail _ hy)
    · have htake : newerHuddle (some old) (some x) = some x := by
        simp only [newerHuddle]
        rw [if_neg fun hboth => hle hboth.2]
      obtain ⟨r, hr, hmem, hlargest⟩ := ih x fun y hy => (hrest y hy).trans hid.symm
      rw [htake]
      refine ⟨r, hr, .tail _ hmem, fun y hy => ?_⟩
      rcases mem_cons.mp hy with rfl | hy
      · exact (not_le.mp hle).le.trans (hlargest x (.head _))
      · exact hlargest y hy

/-- The same, for a client that had none or another huddle. -/
theorem foldl_newerHuddle_other {huddle : Ulid} {l : List RoomHuddle} {start : Option RoomHuddle}
    (hne : l ≠ []) (hsame : ∀ x ∈ l, x.id = huddle) (hstart : ∀ old ∈ start, old.id ≠ huddle) :
    ∃ r, (l.map some).foldl newerHuddle start = some r ∧ r ∈ l ∧
      ∀ x ∈ l, x.version ≤ r.version := by
  cases l with
  | nil => exact absurd rfl hne
  | cons x l =>
    have hid : x.id = huddle := hsame x (.head _)
    have htake : newerHuddle start (some x) = some x := by
      cases start with
      | none => rfl
      | some old =>
        simp only [newerHuddle]
        rw [if_neg fun hboth => hstart old rfl (hboth.1.trans hid)]
    show ∃ r, (l.map some).foldl newerHuddle (newerHuddle start (some x)) = some r ∧ _
    rw [htake]
    exact foldl_newerHuddle_largest l x fun y hy =>
      (hsame y (mem_cons_of_mem x hy)).trans hid.symm

/-! ## Runs -/

/-- The snapshot is what the huddle was like. -/
def HuddleSnapshot.Of (a : HuddleSnapshot) (s : HuddleRedis) : Prop :=
  a.version = s.versions a.huddleId ∧ a.participants = s.participants a.huddleId

namespace HuddleReads

open HuddleRedis

variable {s s' : HuddleReads} {a : HuddleReadsAction} {st st' : HuddleRedis}

/-- **What was read is what was there**: the past goes on, every snapshot is of a moment
of it, and who is being read is still there. -/
structure Recorded (s : HuddleReads) : Prop where
  last : s.past.getLast? = some s.store
  named : ∀ st ∈ s.past, st.Named
  follows : s.past.Pairwise Follows
  taken : ∀ t ∈ s.pipelines, ∀ a ∈ t.snaps, ∃ st ∈ s.past, a.Of st
  reading : ∀ t ∈ s.pipelines, ∀ r ∈ t.reading,
    r.read.entries.Perm (s.store.members r.huddle).entries

theorem recorded_start (h : huddleReads.init s) : s.Recorded := by
  obtain ⟨hstore, hpast, hpipelines⟩ := h
  refine { last := ?_, named := ?_, follows := ?_, taken := ?_, reading := ?_ }
  · rw [hpast, hstore]
    rfl
  · rw [hpast]
    intro st hst h p r hr
    rw [mem_singleton.mp hst] at hr
    have hnone : (empty.members h).lookup p = none := AList.lookup_empty p
    cases hnone.symm.trans hr
  · rw [hpast]
    exact pairwise_singleton _ _
  · rw [hpipelines]
    exact nofun
  · rw [hpipelines]
    exact nofun

variable (h : s.Recorded)
include h

theorem Recorded.store_mem : s.store ∈ s.past := by
  obtain ⟨before, hbefore⟩ := getLast?_eq_some_iff.mp h.last
  rw [hbefore]
  exact mem_append_right _ (.head _)

/-- A script that leaves those who are being read as they are. -/
theorem Recorded.script {c : HuddleCall} (hc : LeavesReadAlone s (.script c)) : Recorded { s with
      store := s.store.call c
      past := s.past ++ [s.store.call c] } := by
  have hends : ∀ huddle, c ≠ .clear huddle := by
    rintro huddle rfl
    exact hc
  have hsame : ∀ t ∈ s.pipelines, ∀ r ∈ t.reading,
      ((s.store.call c).members r.huddle).entries.Perm (s.store.members r.huddle).entries := by
    cases c with
    | clear huddle => exact absurd rfl (hends huddle)
    | _ => exact hc
  have hfollows := follows_call s.store hends
  refine { last := getLast?_concat, named := fun st hst => ?_, follows := ?_,
           taken := fun t ht a ha => ?_, reading := fun t ht r hr => ?_ }
  · rcases mem_append.mp hst with hold | hnew
    · exact h.named st hold
    · rw [mem_singleton.mp hnew]
      exact hfollows.named (h.named _ h.store_mem)
  · refine pairwise_append.mpr ⟨h.follows, pairwise_singleton _ _, fun st hst st' hst' => ?_⟩
    obtain rfl := mem_singleton.mp hst'
    -- whatever was before the last is followed by it
    have hlast : Follows st s.store := by
      obtain ⟨before, hbefore⟩ := getLast?_eq_some_iff.mp h.last
      have hpair := h.follows
      rw [hbefore] at hst hpair
      rcases mem_append.mp hst with hin | hin
      · exact (pairwise_append.mp hpair).2.2 st hin s.store (.head _)
      · rw [mem_singleton.mp hin]
        exact Follows.refl s.store
    exact hlast.trans hfollows
  · obtain ⟨st, hst, hof⟩ := h.taken t ht a ha
    exact ⟨st, mem_append_left _ hst, hof⟩
  · exact (h.reading t ht r hr).trans (hsame t ht r hr).symm

/-- A command of a pipeline. -/
theorem Recorded.command {i : ℕ} {t t' : Snapshots} (ht : s.pipelines[i]? = some t)
    (hcommand : t.command s.store = some t') :
    Recorded { s with pipelines := s.pipelines.set i t' } := by
  have hin : t ∈ s.pipelines := mem_of_getElem? ht
  have hnext : (∀ a ∈ t'.snaps, ∃ st ∈ s.past, a.Of st) ∧
      ∀ r ∈ t'.reading, r.read.entries.Perm (s.store.members r.huddle).entries := by
    unfold Snapshots.command at hcommand
    split at hcommand
    · split at hcommand
      · cases hcommand
      · rw [← Option.some.inj hcommand]
        refine ⟨h.taken t hin, fun r hr => ?_⟩
        rw [← Option.some.inj hr]
        exact List.Perm.refl _
    · next huddle members hreading =>
      rw [← Option.some.inj hcommand]
      refine ⟨h.taken t hin, fun r hr => ?_⟩
      rw [← Option.some.inj hr]
      exact h.reading t hin (.members huddle members) hreading
    · next huddle members soon hreading =>
      rw [← Option.some.inj hcommand]
      refine ⟨fun a ha => ?_, nofun⟩
      rcases mem_append.mp ha with hold | hnew
      · exact h.taken t hin a hold
      · rw [mem_singleton.mp hnew]
        -- who was read is who is there when the version is read
        have hsame := h.reading t hin (.soon huddle members soon) hreading
        exact ⟨s.store, h.store_mem, rfl,
          (inOrder_congr hsame.symm (h.named _ h.store_mem huddle)).symm⟩
  refine { last := h.last, named := h.named, follows := h.follows, taken := fun t₁ ht₁ => ?_,
           reading := fun t₁ ht₁ => ?_ }
  · rcases mem_or_eq_of_mem_set ht₁ with hold | rfl
    · exact h.taken t₁ hold
    · exact hnext.1
  · rcases mem_or_eq_of_mem_set ht₁ with hold | rfl
    · exact h.reading t₁ hold
    · exact hnext.2

omit h

theorem recorded_of_reachableBy (h : huddleReads.ReachableBy LeavesReadAlone s) : s.Recorded := by
  refine h.invariant (fun _ => recorded_start) fun s a s' hs ha hstep => ?_
  cases a with
  | script =>
    rw [← Option.some.inj hstep]
    exact hs.script ha
  | snapshots =>
    rw [← Option.some.inj hstep]
    refine { last := hs.last, named := hs.named, follows := hs.follows,
             taken := fun t ht => ?_, reading := fun t ht => ?_ }
    · rcases mem_append.mp ht with hold | hnew
      · exact hs.taken t hold
      · rw [mem_singleton.mp hnew]
        exact nofun
    · rcases mem_append.mp ht with hold | hnew
      · exact hs.reading t hold
      · rw [mem_singleton.mp hnew]
        exact nofun
  | command i =>
    cases ht : s.pipelines[i]? with
    | none => simp [huddleReads, step, ht] at hstep
    | some t =>
      cases ht' : t.command s.store with
      | none => simp [huddleReads, step, ht, ht'] at hstep
      | some =>
        simp only [huddleReads, step, ht, ht'] at hstep
        rw [← Option.some.inj hstep]
        exact hs.command ht ht'

include h

/-- Of two moments of the past, one follows the other. -/
theorem Recorded.comparable (hst : st ∈ s.past)
    (hst' : st' ∈ s.past) : Follows st st' ∨ Follows st' st := by
  obtain ⟨i, hi, rfl⟩ := mem_iff_getElem.mp hst
  obtain ⟨j, hj, rfl⟩ := mem_iff_getElem.mp hst'
  have hpair := pairwise_iff_getElem.mp h.follows
  rcases lt_trichotomy i j with hlt | heq | hgt
  · exact .inl (hpair i j hi hj hlt)
  · subst heq
    exact .inl (Follows.refl _)
  · exact .inr (hpair j i hj hi hgt)

/-- **A version says who is in the huddle.** -/
theorem Recorded.participants_eq {a b : HuddleSnapshot}
    (hst : st ∈ s.past) (hst' : st' ∈ s.past) (ha : a.Of st) (hb : b.Of st')
    (hhuddle : a.huddleId = b.huddleId) (hversion : a.version = b.version) :
    a.participants = b.participants := by
  have hversions : st.versions b.huddleId = st'.versions b.huddleId := by
    rw [← hb.1, ← hversion, ha.1, hhuddle]
  rw [ha.2, hb.2, hhuddle]
  rcases h.comparable hst hst' with hfollows | hfollows
  · exact (inOrder_congr (hfollows.same _ hversions.symm) (h.named st' hst' b.huddleId)).symm
  · exact inOrder_congr (hfollows.same _ hversions) (h.named st hst b.huddleId)

theorem Recorded.of_taken {a : HuddleSnapshot} (ha : a ∈ s.taken) : ∃ st ∈ s.past, a.Of st := by
  obtain ⟨t, ht, hat⟩ := mem_flatMap.mp ha
  exact h.taken t ht a hat

/-- What is there now is the newest. -/
theorem Recorded.le_store (hst : st ∈ s.past) (huddle : Ulid) :
    st.versions huddle ≤ s.store.versions huddle := by
  obtain ⟨before, hbefore⟩ := getLast?_eq_some_iff.mp h.last
  have hpair := h.follows
  rw [hbefore] at hst hpair
  rcases mem_append.mp hst with hin | hin
  · exact ((pairwise_append.mp hpair).2.2 st hin s.store (.head _)).le huddle
  · rw [mem_singleton.mp hin]

/-- A larger version is of a later moment. -/
theorem Recorded.later {a b : HuddleSnapshot} (ha : a ∈ s.taken)
    (hb : b ∈ s.taken) (hhuddle : a.huddleId = b.huddleId) (hversion : a.version < b.version) :
    ∃ (i j : ℕ) (st st' : HuddleRedis), i < j ∧ s.past[i]? = some st ∧ s.past[j]? = some st' ∧
      a.Of st ∧ b.Of st' := by
  obtain ⟨st, hst, hof⟩ := h.of_taken ha
  obtain ⟨st', hst', hof'⟩ := h.of_taken hb
  obtain ⟨i, hi, rfl⟩ := mem_iff_getElem.mp hst
  obtain ⟨j, hj, rfl⟩ := mem_iff_getElem.mp hst'
  refine ⟨i, j, s.past[i], s.past[j], ?_, getElem?_eq_getElem hi, getElem?_eq_getElem hj, hof, hof'⟩
  -- otherwise the moment of the larger version comes first, and versions only grow
  by_contra hle
  have hback : s.past[j].versions b.huddleId ≤ s.past[i].versions b.huddleId := by
    rcases (not_lt.mp hle).lt_or_eq with hlt | heq
    · exact (pairwise_iff_getElem.mp h.follows j i hj hi hlt).le _
    · subst heq
      exact le_rfl
  rw [← hof'.1, ← hhuddle, ← hof.1] at hback
  exact absurd hversion (not_lt.mpr hback)

omit h

/-- **Same version, same participants.** In every run in which no huddle ends and no
script changes who is in a huddle while it is being read: two snapshots of one huddle
with the same version have the same participants, and of two versions the larger is of
a later moment. A client that had none of the states of a huddle, and gets snapshots of
it in any order, with gaps and repetitions, shows those who are in the huddle as soon as
one of them has the newest version. -/
theorem snapshots_agree (h : huddleReads.ReachableBy LeavesReadAlone s) :
    (∀ a ∈ s.taken, ∀ b ∈ s.taken, a.huddleId = b.huddleId → a.version = b.version →
      a.participants = b.participants) ∧
    (∀ a ∈ s.taken, ∀ b ∈ s.taken, a.huddleId = b.huddleId → a.version < b.version →
      ∃ (i j : ℕ) (st st' : HuddleRedis), i < j ∧ s.past[i]? = some st ∧ s.past[j]? = some st' ∧
        a.Of st ∧ b.Of st') ∧
    ∀ (huddle roomId messageId : Ulid) (startedAt : DateTime) (arrived : List HuddleSnapshot)
      (start : Option RoomHuddle), (∀ a ∈ arrived, a ∈ s.taken ∧ a.huddleId = huddle) →
      (∀ old ∈ start, old.id ≠ huddle) →
      (∃ a ∈ arrived, a.version = s.store.versions huddle) →
      ∃ r, ((arrived.map (roomHuddle roomId messageId startedAt)).map some).foldl newerHuddle start
          = some r ∧ r.version = s.store.versions huddle ∧
        r.participants = shown [] (s.store.participants huddle) := by
  have hs := recorded_of_reachableBy h
  refine ⟨fun a ha b hb => ?_, fun a ha b hb => hs.later ha hb,
    fun huddle roomId messageId startedAt arrived start harrived hstart hnewest => ?_⟩
  · obtain ⟨st, hst, hof⟩ := hs.of_taken ha
    obtain ⟨st', hst', hof'⟩ := hs.of_taken hb
    exact hs.participants_eq hst hst' hof hof'
  · obtain ⟨newest, hnew, hversion⟩ := hnewest
    let views := arrived.map (roomHuddle roomId messageId startedAt)
    have hne : views ≠ [] := fun hnil =>
      absurd (map_eq_nil_iff.mp hnil) (ne_nil_of_mem hnew)
    have hids : ∀ x ∈ views, x.id = huddle := by
      intro x hx
      obtain ⟨a, ha, rfl⟩ := mem_map.mp hx
      exact (harrived a ha).2
    obtain ⟨r, hr, hmem, hlargest⟩ := foldl_newerHuddle_other hne hids hstart
    obtain ⟨a, ha, rfl⟩ := mem_map.mp hmem
    obtain ⟨htaken, hhuddle⟩ := harrived a ha
    obtain ⟨st, hst, hof⟩ := hs.of_taken htaken
    have hle : a.version ≤ s.store.versions huddle := by
      rw [hof.1, hhuddle]
      exact hs.le_store hst huddle
    have hge : newest.version ≤ a.version := hlargest _ (mem_map_of_mem hnew)
    have hnow : a.version = s.store.versions huddle := le_antisymm hle (hversion ▸ hge)
    -- what is there now, as a snapshot
    let now : HuddleSnapshot := ⟨huddle, s.store.versions huddle, s.store.participants huddle, []⟩
    have hsame : a.participants = now.participants :=
      hs.participants_eq hst hs.store_mem hof ⟨rfl, rfl⟩ hhuddle hnow
    refine ⟨_, hr, hnow, ?_⟩
    show shown [] a.participants = _
    rw [hsame]

/-- Redis without huddles, and nobody who reads. -/
def new : HuddleReads := ⟨.empty, [.empty], []⟩

/-- A user joins the huddle. -/
def joins (huddle participant user : Ulid) : HuddleReadsAction :=
  .script (.join (HuddleLog.joined huddle participant user) 30 8 (HuddleLog.status 1))

/-- Two users join, the huddle is read after each, and the older state arrives
last. -/
theorem read_between_joins : ∃ (s : HuddleReads) (a b : HuddleSnapshot), a ∈ s.taken ∧
    b ∈ s.taken ∧ a.version = 1 ∧ b.version = 2 ∧
    s.store.versions 7 = 2 ∧
    ∃ r, (([b, a].map (roomHuddle 1 9 "")).map some).foldl newerHuddle none = some r ∧
      r.version = s.store.versions 7 ∧
      r.participants = shown [] (s.store.participants 7) := by
  have hrun : (huddleReads.runBy LeavesReadAlone new
      [joins 7 100 10, .snapshots [7] 5, .command 0, .command 0, .command 0, joins 7 101 11,
        .snapshots [7] 6, .command 1, .command 1, .command 1]).any (fun s =>
      decide (s.taken.map (fun a => (a.huddleId, a.version)) = [(7, 1), (7, 2)] ∧
        s.store.versions 7 = 2)) = true := by
    decide +kernel
  obtain ⟨s, hreach, htest⟩ :=
    TransitionSystem.exists_of_runBy hrun (show huddleReads.init new from ⟨rfl, rfl, rfl⟩)
  obtain ⟨htaken, hversions⟩ := of_decide_eq_true htest
  obtain ⟨a, b, hab⟩ : ∃ a b, s.taken = [a, b] := length_eq_two.mp (by
    have hlength := congrArg List.length htaken
    rwa [length_map] at hlength)
  rw [hab] at htaken
  simp only [map_cons, map_nil, List.cons.injEq, Prod.mk.injEq, and_true] at htaken
  have ha : a ∈ s.taken := by simp [hab]
  have hb : b ∈ s.taken := by simp [hab]
  refine ⟨s, a, b, ha, hb, htaken.1.2, htaken.2.2, hversions, ?_⟩
  refine (snapshots_agree hreach).2.2 7 1 9 "" [b, a] none (fun x hx => ?_) (by simp)
    ⟨b, by simp, by rw [htaken.2.2, hversions]⟩
  rcases mem_cons.mp hx with rfl | hx
  · exact ⟨hb, htaken.2.1⟩
  · rw [mem_singleton.mp hx]
    exact ⟨ha, htaken.1.1⟩

/-- **A version can be read with those who were there before.** A user joins between the
reading of the participations and that of the version. The next snapshot has the same
version and one participant more, and a client that has the first drops it. -/
theorem stale_participants_stay : ∃ (s : HuddleReads) (a b : HuddleSnapshot),
    huddleReads.Reachable s ∧ a ∈ s.taken ∧ b ∈ s.taken ∧
    a.huddleId = b.huddleId ∧ a.version = b.version ∧
    a.participants.map Participation.userId = [10] ∧
    b.participants.map Participation.userId = [10, 11] ∧
    (([a, b].map (roomHuddle 1 9 "")).map some).foldl newerHuddle none
      = some (roomHuddle 1 9 "" a) := by
  have hrun : (huddleReads.run new
      [joins 7 100 10, .snapshots [7] 5, .command 0, joins 7 101 11, .command 0, .command 0,
        .snapshots [7] 5, .command 1, .command 1, .command 1]).any (fun s =>
      decide (s.taken.map (fun a => (a.huddleId, a.version, a.participants.map Participation.userId))
        = [(7, 2, [10]), (7, 2, [10, 11])])) = true := by
    decide +kernel
  obtain ⟨s, hreach, htest⟩ :=
    TransitionSystem.exists_of_run hrun (show huddleReads.init new from ⟨rfl, rfl, rfl⟩)
  have htaken := of_decide_eq_true htest
  obtain ⟨a, b, hab⟩ : ∃ a b, s.taken = [a, b] := length_eq_two.mp (by
    have hlength := congrArg List.length htaken
    rwa [length_map] at hlength)
  rw [hab] at htaken
  simp only [map_cons, map_nil, List.cons.injEq, Prod.mk.injEq, and_true] at htaken
  obtain ⟨⟨hida, hva, hpa⟩, hidb, hvb, hpb⟩ := htaken
  refine ⟨s, a, b, hreach, by simp [hab], by simp [hab], by rw [hida, hidb], by rw [hva, hvb], hpa,
    hpb, ?_⟩
  simp only [map_cons, map_nil, foldl_cons, foldl_nil, newerHuddle, roomHuddle]
  rw [if_pos ⟨by rw [hida, hidb], by rw [hva, hvb]⟩]

end HuddleReads

end Hibari
