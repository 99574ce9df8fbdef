import Hibari.HuddleScripts
import Hibari.TransitionSystem

/-!
# Who is in a huddle: what the scripts keep

The five structures say the same (`huddle_structures_agree`): a user has one
participation, which is the one the user's key names; every participation has a
deadline, and every deadline a participation; a workspace's set holds who has a
participation in it; and what was published says of every user when it entered the
set and when it left it.

The number of a participation has to be new, as the server makes it. A join with
the number that another user's participation has in the same huddle writes over
it, and leaves the other user's key behind (`overwritten_participation`). And a mark
is only told of where there is something to publish, and somewhere to publish it.
-/

namespace Hibari

open List Function

namespace HuddleRedis

variable {s : HuddleRedis} {u ws : Ulid}
  {h h₀ p₀ : Ulid} {p r₀ : Participation} {s' s'' : HuddleRedis} {status : HuddleStatus}
    {deadline limit : ℕ}

/-! ## The scripts in closed form -/

/-- The workspaces' sets without a user that is marked. -/
def inHuddleWithout (s : HuddleRedis) (u : Ulid) : Ulid → Finset Ulid :=
  match s.marks u with
  | none => s.inHuddle
  | some m => Function.update s.inHuddle m.ws ((s.inHuddle m.ws).erase u)

/-- Whether there is nothing to publish, or nowhere. -/
def Silent (channels : List String) (payload : String) : Prop := payload = "" ∨ channels = []

instance (channels : List String) (payload : String) : Decidable (Silent channels payload) := by
  unfold Silent
  infer_instance

/-- What is published when the mark of a user goes. -/
def noticesOff (s : HuddleRedis) (u : Ulid) : List HuddleNotice :=
  match s.marks u with
  | none => []
  | some m => if u ∈ s.inHuddle m.ws ∧ ¬ Silent m.ch m.off then [⟨m.ws, u, false, m.ch, m.off⟩]
    else []

/-- **What taking a mark away does.** -/
theorem statusOff_eq (s : HuddleRedis) (u : Ulid) : s.statusOff u = { s with
      marks := update s.marks u none
      inHuddle := s.inHuddleWithout u
      notices := s.notices ++ s.noticesOff u } := by
  unfold statusOff inHuddleWithout noticesOff
  cases hmark : s.marks u with
  | none =>
    have hsame : update s.marks u none = s.marks := by
      rw [← hmark]
      exact update_eq_self u s.marks
    simp only [hsame, append_nil]
  | some m =>
    simp only [unmark, publish]
    by_cases hmem : u ∈ s.inHuddle m.ws
    · by_cases hsilent : Silent m.ch m.off
      · have hsilent' : m.off = "" ∨ m.ch = [] := hsilent
        simp only [hmem, hsilent, hsilent', if_true, not_true, and_false, if_false, append_nil]
      · have hsilent' : ¬ (m.off = "" ∨ m.ch = []) := hsilent
        simp only [hmem, hsilent, hsilent', if_true, not_false_eq_true, and_self, if_false]
    · have hsame : update s.inHuddle m.ws ((s.inHuddle m.ws).erase u) = s.inHuddle := by
        rw [Finset.erase_eq_of_notMem hmem]
        exact update_eq_self _ _
      simp only [hmem, if_false, false_and, append_nil, hsame]

/-- **What setting a mark does.** -/
theorem mark_eq (s : HuddleRedis) (u : Ulid) (status : HuddleStatus) : s.mark u status = { s with
      marks :=
        update s.marks u (some ⟨status.workspaceId, status.channels, status.left⟩)
      inHuddle := update s.inHuddle status.workspaceId
        (insert u (s.inHuddle status.workspaceId))
      notices := s.notices ++
        if u ∉ s.inHuddle status.workspaceId ∧ ¬ Silent status.channels status.joined then
          [⟨status.workspaceId, u, true, status.channels, status.joined⟩]
        else [] } := by
  unfold mark publish
  by_cases hmem : u ∈ s.inHuddle status.workspaceId
  · have hsame : update s.inHuddle status.workspaceId
        (insert u (s.inHuddle status.workspaceId)) = s.inHuddle := by
      rw [Finset.insert_eq_self.mpr hmem]
      exact update_eq_self _ _
    simp only [hmem, if_true, not_true, false_and, if_false, append_nil, hsame]
  · by_cases hsilent : Silent status.channels status.joined
    · have hsilent' : status.joined = "" ∨ status.channels = [] := hsilent
      simp only [hmem, hsilent, hsilent', if_true, if_false, not_true, and_false, append_nil]
    · have hsilent' : ¬ (status.joined = "" ∨ status.channels = []) := hsilent
      simp only [hmem, hsilent, hsilent', if_true, if_false, not_false_eq_true, and_self]

/-! ## Participations, keys and deadlines -/

/-- **The keys and the deadlines are those of the participations.** -/
structure Linked (s : HuddleRedis) : Prop where
  index : ∀ u h p, s.userKeys u = some (h, p) ↔ ∃ r, (s.members h).lookup p = some r ∧ r.userId = u
  deadlines : ∀ h p, (h, p) ∈ s.deadlines ↔ p ∈ s.members h

/-- Only whose the participations are matters, and which deadlines there are. -/
theorem Linked.congr (h : s.Linked) (s' : HuddleRedis)
    (husers : ∀ h p, ((s'.members h).lookup p).map Participation.userId
      = ((s.members h).lookup p).map Participation.userId)
    (hdeadlines : ∀ e, e ∈ s'.deadlines ↔ e ∈ s.deadlines)
    (hkeys : s'.userKeys = s.userKeys) : s'.Linked := by
  refine ⟨fun u h' p => ?_, fun h' p => ?_⟩
  · have hold := h.index u h' p
    rw [← Option.map_eq_some_iff] at hold ⊢
    rw [hkeys, husers]
    exact hold
  · rw [hdeadlines, h.deadlines, ← AList.lookup_isSome (s := s.members h'),
      ← AList.lookup_isSome (s := s'.members h'), ← Option.isSome_map (f := Participation.userId),
      ← husers, Option.isSome_map]

theorem linked_empty : Linked empty := by
  refine ⟨fun u h p => ?_, fun h p => ?_⟩
  · refine iff_of_false (by simp [empty]) fun ⟨r, hr, _⟩ => ?_
    have hnone : (empty.members h).lookup p = none := AList.lookup_empty p
    cases hnone.symm.trans hr
  · exact iff_of_false (AList.notMem_empty _) (AList.notMem_empty p)

/-- The participations after one is deleted. -/
theorem lookup_delMember (s : HuddleRedis) (h p h' p' : Ulid) :
    ((s.delMember h p).members h').lookup p'
      = if h' = h ∧ p' = p then none else (s.members h').lookup p' := by
  show (update s.members h ((s.members h).erase p) h').lookup p' = _
  by_cases hh : h' = h
  · subst hh
    rw [update_self]
    by_cases hp : p' = p
    · rw [if_pos ⟨rfl, hp⟩, hp, AList.lookup_erase]
    · rw [if_neg fun hboth => hp hboth.2, AList.lookup_erase_ne hp]
  · rw [update_of_ne hh, if_neg fun hboth => hh hboth.1]

/-- Deleting a participation with its deadline and its user's key keeps the
rest. -/
theorem Linked.delete (h : s.Linked) (hr₀ : (s.members h₀).lookup p₀ = some r₀) :
    ((s.delMember h₀ p₀).delUserKey r₀.userId).Linked := by
  have hkey₀ : s.userKeys r₀.userId = some (h₀, p₀) := (h.index _ _ _).mpr ⟨r₀, hr₀, rfl⟩
  refine ⟨fun u h' p' => ?_, fun h' p' => ?_⟩
  · show update s.userKeys r₀.userId none u = _
      ↔ ∃ r, ((s.delMember h₀ p₀).members h').lookup p' = some r ∧ r.userId = u
    rw [lookup_delMember]
    by_cases hu : u = r₀.userId
    · subst hu
      rw [update_self]
      refine iff_of_false (by simp) fun ⟨r, hr, hru⟩ => ?_
      split at hr
      · cases hr
      · next hne =>
        have hkey : s.userKeys r₀.userId = some (h', p') := (h.index _ _ _).mpr ⟨r, hr, hru⟩
        have heq := Option.some.inj (hkey₀.symm.trans hkey)
        exact hne ⟨congrArg Prod.fst heq.symm, congrArg Prod.snd heq.symm⟩
    · rw [update_of_ne hu, h.index]
      split
      · next heq =>
        refine iff_of_false (fun ⟨r, hr, hru⟩ => ?_) (by simp)
        rw [heq.1, heq.2, hr₀] at hr
        exact hu (hru.symm.trans (congrArg _ (Option.some.inj hr).symm))
      · exact .rfl
  · show (h', p') ∈ s.deadlines.erase (h₀, p₀) ↔ p' ∈ (s.delMember h₀ p₀).members h'
    rw [← AList.lookup_isSome (s := (s.delMember h₀ p₀).members h'), lookup_delMember,
      AList.mem_erase, h.deadlines]
    split
    · next heq => simp [heq.1, heq.2]
    · next hne =>
      rw [AList.lookup_isSome]
      exact ⟨And.right, fun hmem => ⟨fun heq =>
        hne ⟨congrArg Prod.fst heq, congrArg Prod.snd heq⟩, hmem⟩⟩

/-- **What removing a participation does**, where keys and participations
agree. -/
theorem remove_eq (h : s.Linked) (hr₀ : (s.members h₀).lookup p₀ = some r₀) (moving : Bool) :
    s.remove h₀ p₀ moving = (incr (if moving then (s.delMember h₀ p₀).delUserKey r₀.userId
        else ((s.delMember h₀ p₀).delUserKey r₀.userId).statusOff r₀.userId) h₀, some r₀) := by
  have hkey₀ : s.userKeys r₀.userId = some (h₀, p₀) := (h.index _ _ _).mpr ⟨r₀, hr₀, rfl⟩
  have hkey : (s.delMember h₀ p₀).userKeys r₀.userId = some (h₀, p₀) := hkey₀
  simp only [remove, hr₀, hkey, if_true]

theorem remove_of_none (hnone : (s.members h₀).lookup p₀ = none) (moving : Bool) :
    s.remove h₀ p₀ moving = (s, none) := by
  simp only [remove, hnone]

theorem Linked.remove (h : s.Linked) (h₀ p₀ : Ulid) (moving : Bool) :
    (s.remove h₀ p₀ moving).1.Linked := by
  cases hr₀ : (s.members h₀).lookup p₀ with
  | none =>
    rw [remove_of_none hr₀]
    exact h
  | some r₀ =>
    rw [remove_eq h hr₀]
    cases moving with
    | true => exact (h.delete hr₀).congr _ (fun _ _ => rfl) (fun _ => .rfl) rfl
    | false =>
      show Linked (incr (((s.delMember h₀ p₀).delUserKey r₀.userId).statusOff r₀.userId) h₀)
      rw [statusOff_eq]
      exact (h.delete hr₀).congr _ (fun _ _ => rfl) (fun _ => .rfl) rfl

/-- The participations after one is removed. -/
theorem lookup_remove (h : s.Linked) (h₀ p₀ : Ulid) (moving : Bool) (h' p' : Ulid) :
    ((s.remove h₀ p₀ moving).1.members h').lookup p'
      = if h' = h₀ ∧ p' = p₀ then none else (s.members h').lookup p' := by
  cases hr₀ : (s.members h₀).lookup p₀ with
  | none =>
    rw [remove_of_none hr₀]
    split
    · next heq => rw [heq.1, heq.2, hr₀]
    · rfl
  | some r₀ =>
    rw [remove_eq h hr₀, ← lookup_delMember]
    cases moving with
    | true => rfl
    | false =>
      show ((((s.delMember h₀ p₀).delUserKey r₀.userId).statusOff r₀.userId).members h').lookup p'
        = _
      rw [statusOff_eq]
      rfl

/-! ## What was published -/

/-- Whether a user entered a workspace's set or left it, in the order in which it
was published. -/
def noticesOf (s : HuddleRedis) (ws u : Ulid) : List Bool :=
  (s.notices.filter (fun n => decide (n.workspaceId = ws ∧ n.userId = u))).map (·.inHuddle)

/-- What is to be published of a user where the sets were one way and are another
way. -/
def turned (s s' : HuddleRedis) (ws u : Ulid) : List Bool :=
  if u ∈ s.inHuddle ws ↔ u ∈ s'.inHuddle ws then [] else [decide (u ∈ s'.inHuddle ws)]

/-- **What was published is who entered and who left.** -/
def Tells (s s' : HuddleRedis) : Prop :=
  ∀ ws u, s'.noticesOf ws u = s.noticesOf ws u ++ s.turned s' ws u

/-- Every mark can be told of when it goes. -/
def Loud (s : HuddleRedis) : Prop := ∀ u m, s.marks u = some m → ¬ Silent m.ch m.off

theorem Tells.of_same {s : HuddleRedis} (hnotices : s'.notices = s.notices)
    (hsets : s'.inHuddle = s.inHuddle) : Tells s s' := by
  intro ws u
  have hturned : s.turned s' ws u = [] := by
    unfold turned
    rw [hsets, if_pos Iff.rfl]
  rw [hturned, append_nil]
  unfold noticesOf
  rw [hnotices]

/-- Publishing what was published first and then what came of the rest is publishing
all of it, where nobody turns twice. -/
theorem Tells.trans {s : HuddleRedis} (h : Tells s s') (h' : Tells s' s'')
    (honce : ∀ ws u, (u ∈ s.inHuddle ws ↔ u ∈ s'.inHuddle ws)
      ∨ (u ∈ s'.inHuddle ws ↔ u ∈ s''.inHuddle ws)) : Tells s s'' := by
  intro ws u
  rw [h' ws u, h ws u, append_assoc]
  refine congrArg _ ?_
  unfold turned
  rcases honce ws u with hsame | hsame
  · rw [if_pos hsame, nil_append]
    simp only [hsame]
  · rw [if_pos hsame, append_nil]
    simp only [hsame]

/-- Publishing one notice, and nothing else. -/
theorem Tells.of_notice {s : HuddleRedis} {n : HuddleNotice}
    (hnotices : s'.notices = s.notices ++ [n])
    (hother : ∀ ws u, (ws = n.workspaceId ∧ u = n.userId) ∨ (u ∈ s.inHuddle ws ↔ u ∈ s'.inHuddle ws))
    (hbefore : (n.userId ∈ s.inHuddle n.workspaceId) = ¬ n.inHuddle)
    (hafter : (n.userId ∈ s'.inHuddle n.workspaceId) = n.inHuddle) : Tells s s' := by
  intro ws u
  have hsplit : s'.noticesOf ws u = s.noticesOf ws u ++
      if n.workspaceId = ws ∧ n.userId = u then [n.inHuddle] else [] := by
    unfold noticesOf
    rw [hnotices, filter_append, map_append]
    by_cases hn : n.workspaceId = ws ∧ n.userId = u
    · simp [hn]
    · simp [hn]
  rw [hsplit]
  refine congrArg _ ?_
  unfold turned
  by_cases hn : n.workspaceId = ws ∧ n.userId = u
  · obtain ⟨rfl, rfl⟩ := hn
    simp only [hbefore, hafter]
    cases n.inHuddle with
    | _ => simp
  · have hsame := (hother ws u).resolve_left fun hboth => hn ⟨hboth.1.symm, hboth.2.symm⟩
    rw [if_neg hn, if_pos hsame]

/-! ## Marks and sets -/

/-- **The marks are those of the users that have a key**, and the workspaces' sets
hold who is marked. -/
structure Marked (s : HuddleRedis) : Prop where
  key : ∀ u, (s.marks u).isSome ↔ (s.userKeys u).isSome
  set : ∀ u ws, u ∈ s.inHuddle ws ↔ ∃ m, s.marks u = some m ∧ m.ws = ws

theorem marked_empty : Marked empty := by
  refine ⟨fun u => .rfl, fun u ws => ?_⟩
  exact iff_of_false (Finset.notMem_empty u) (by simp [empty])

variable (hset : ∀ ws, u ∈ s.inHuddle ws ↔ ∃ m, s.marks u = some m ∧ m.ws = ws)
include hset

/-- Who is in a workspace's set without a user. -/
theorem mem_inHuddleWithout
    (u' ws : Ulid) : u' ∈ s.inHuddleWithout u ws ↔ u' ≠ u ∧ u' ∈ s.inHuddle ws := by
  unfold inHuddleWithout
  cases hmark : s.marks u with
  | none =>
    have hout : u ∉ s.inHuddle ws := fun hmem => by
      obtain ⟨m, hm, -⟩ := (hset ws).mp hmem
      rw [hmark] at hm
      cases hm
    refine ⟨fun hmem => ⟨?_, hmem⟩, And.right⟩
    rintro rfl
    exact hout hmem
  | some m =>
    show u' ∈ update s.inHuddle m.ws ((s.inHuddle m.ws).erase u) ws ↔ _
    by_cases hws : ws = m.ws
    · subst hws
      rw [update_self, Finset.mem_erase]
    · have hout : u ∉ s.inHuddle ws := fun hmem => by
        obtain ⟨m', hm', hws'⟩ := (hset ws).mp hmem
        rw [hmark] at hm'
        exact hws (hws'.symm.trans (congrArg _ (Option.some.inj hm').symm))
      rw [update_of_ne hws]
      refine ⟨fun hmem => ⟨?_, hmem⟩, And.right⟩
      rintro rfl
      exact hout hmem

omit hset

theorem Tells.statusOff (hloud : s.Loud)
    (hset : ∀ ws, u ∈ s.inHuddle ws ↔ ∃ m, s.marks u = some m ∧ m.ws = ws) :
    Tells s (s.statusOff u) := by
  rw [statusOff_eq]
  cases hmark : s.marks u with
  | none =>
    refine Tells.of_same ?_ ?_
    · show s.notices ++ s.noticesOff u = s.notices
      simp only [noticesOff, hmark, append_nil]
    · show s.inHuddleWithout u = s.inHuddle
      simp only [inHuddleWithout, hmark]
  | some m =>
    have hmem : u ∈ s.inHuddle m.ws := (hset m.ws).mpr ⟨m, hmark, rfl⟩
    have hnotices : s.noticesOff u = [⟨m.ws, u, false, m.ch, m.off⟩] := by
      simp only [noticesOff, hmark]
      rw [if_pos ⟨hmem, hloud u m hmark⟩]
    refine Tells.of_notice (n := ⟨m.ws, u, false, m.ch, m.off⟩) ?_ (fun ws u' => ?_) ?_ ?_
    · show s.notices ++ s.noticesOff u = _
      rw [hnotices]
    · show _ ∨ (u' ∈ s.inHuddle ws ↔ u' ∈ s.inHuddleWithout u ws)
      rw [mem_inHuddleWithout hset]
      by_cases hu : u' = u
      · subst hu
        by_cases hws : ws = m.ws
        · exact .inl ⟨hws, rfl⟩
        · refine .inr (iff_of_false (fun hin => ?_) (fun hboth => hboth.1 rfl))
          obtain ⟨m', hm', hws'⟩ := (hset ws).mp hin
          rw [hmark] at hm'
          exact hws (hws'.symm.trans (congrArg _ (Option.some.inj hm').symm))
      · exact .inr ⟨fun hin => ⟨hu, hin⟩, And.right⟩
    · simp [hmem]
    · show (u ∈ s.inHuddleWithout u m.ws) = _
      rw [mem_inHuddleWithout hset]
      simp

/-! ## Where nobody enters -/

/-- **Nobody enters**: the structures keep saying the same, and participations,
marks and the members of sets can only go, the last being published. -/
structure Leaving (s s' : HuddleRedis) : Prop where
  linked : s'.Linked
  marked : s'.Marked
  fewer : ∀ h p r', (s'.members h).lookup p = some r' →
    ∃ r, (s.members h).lookup p = some r ∧ r.userId = r'.userId
  count : ∀ h, s'.count h ≤ s.count h
  marks : ∀ u m, s'.marks u = some m → s.marks u = some m
  sets : ∀ ws u, u ∈ s'.inHuddle ws → u ∈ s.inHuddle ws
  tells : s.Loud → Tells s s'

theorem Leaving.loud {s : HuddleRedis} (h : Leaving s s') (hloud : s.Loud) : s'.Loud :=
  fun u m hm => hloud u m (h.marks u m hm)

theorem Leaving.trans {s : HuddleRedis} (h : Leaving s s') (h' : Leaving s' s'') :
    Leaving s s'' where
  linked := h'.linked
  marked := h'.marked
  fewer := fun k p r'' hr'' => by
    obtain ⟨r', hr', hu'⟩ := h'.fewer k p r'' hr''
    obtain ⟨r, hr, hu⟩ := h.fewer k p r' hr'
    exact ⟨r, hr, hu.trans hu'⟩
  count := fun k => (h'.count k).trans (h.count k)
  marks := fun u m hm => h.marks u m (h'.marks u m hm)
  sets := fun ws u hu => h.sets ws u (h'.sets ws u hu)
  tells := fun hloud => by
    refine (h.tells hloud).trans (h'.tells (h.loud hloud)) fun ws u => ?_
    by_cases hmem : u ∈ s'.inHuddle ws
    · exact .inl ⟨fun _ => hmem, fun _ => h.sets ws u hmem⟩
    · exact .inr (iff_of_false hmem fun hin => hmem (h'.sets ws u hin))

/-- Where keys, marks, sets and notices stay, and the participations are those of the
same users. -/
theorem Leaving.of_same {s : HuddleRedis} (hlinked : s.Linked) (hmarked : s.Marked)
    (husers : ∀ h p, ((s'.members h).lookup p).map Participation.userId
      = ((s.members h).lookup p).map Participation.userId)
    (hdeadlines : ∀ e, e ∈ s'.deadlines ↔ e ∈ s.deadlines)
    (hkeys : s'.userKeys = s.userKeys) (hmarks : s'.marks = s.marks)
    (hsets : s'.inHuddle = s.inHuddle) (hnotices : s'.notices = s.notices)
    (hcount : ∀ h, s'.count h ≤ s.count h) : Leaving s s' where
  linked := hlinked.congr s' husers hdeadlines hkeys
  marked := by
    refine ⟨fun u => ?_, fun u ws => ?_⟩
    · rw [hmarks, hkeys]
      exact hmarked.key u
    · rw [hsets, hmarks]
      exact hmarked.set u ws
  fewer := fun h p r' hr' => by
    have husers' := husers h p
    rw [hr'] at husers'
    exact Option.map_eq_some_iff.mp husers'.symm
  count := hcount
  marks := fun u m hm => by rwa [hmarks] at hm
  sets := fun ws u hu => by rwa [hsets] at hu
  tells := fun _ => Tells.of_same hnotices hsets

theorem Leaving.refl (hlinked : s.Linked) (hmarked : s.Marked) : Leaving s s :=
  Leaving.of_same hlinked hmarked (fun _ _ => rfl) (fun _ => .rfl) rfl rfl rfl rfl fun _ => le_rfl

theorem count_delMember_le (s : HuddleRedis) (h₀ p₀ h : Ulid) :
    (s.delMember h₀ p₀).count h ≤ s.count h := by
  show (update s.members h₀ ((s.members h₀).erase p₀) h).keys.length ≤ _
  by_cases hh : h = h₀
  · subst hh
    rw [update_self, AList.keys_erase]
    exact length_erase_le
  · rw [update_of_ne hh]
    rfl

/-- **Removing a participation**, where the user is not moving. -/
theorem leaving_remove (hlinked : s.Linked) (hmarked : s.Marked) (h₀ p₀ : Ulid) :
    Leaving s (s.remove h₀ p₀ false).1 := by
  cases hr₀ : (s.members h₀).lookup p₀ with
  | none =>
    rw [remove_of_none hr₀]
    exact Leaving.refl hlinked hmarked
  | some r₀ =>
    have hlinked' := hlinked.remove h₀ p₀ false
    have hlookup := lookup_remove hlinked h₀ p₀ false
    rw [remove_eq hlinked hr₀] at hlinked' hlookup ⊢
    -- the marks and the sets are those from before where the mark is taken away
    let s₁ := (s.delMember h₀ p₀).delUserKey r₀.userId
    have hset : ∀ ws, r₀.userId ∈ s₁.inHuddle ws ↔ ∃ m, s₁.marks r₀.userId = some m ∧ m.ws = ws :=
      hmarked.set r₀.userId
    refine { linked := hlinked', marked := ⟨fun u => ?_, fun u ws => ?_⟩, fewer := ?_, count := ?_,
             marks := ?_, sets := ?_, tells := fun hloud => ?_ }
    · show ((s₁.statusOff r₀.userId).marks u).isSome ↔ ((s₁.statusOff r₀.userId).userKeys u).isSome
      rw [statusOff_eq]
      show (update s.marks r₀.userId none u).isSome
        ↔ (update s.userKeys r₀.userId none u).isSome
      by_cases hu : u = r₀.userId
      · rw [hu, update_self, update_self]
        exact .rfl
      · rw [update_of_ne hu, update_of_ne hu]
        exact hmarked.key u
    · show u ∈ (s₁.statusOff r₀.userId).inHuddle ws
        ↔ ∃ m, (s₁.statusOff r₀.userId).marks u = some m ∧ m.ws = ws
      rw [statusOff_eq]
      show u ∈ s₁.inHuddleWithout r₀.userId ws
        ↔ ∃ m, update s.marks r₀.userId none u = some m ∧ m.ws = ws
      rw [mem_inHuddleWithout hset]
      by_cases hu : u = r₀.userId
      · rw [hu, update_self]
        exact iff_of_false (fun hboth => hboth.1 rfl) (by simp)
      · rw [update_of_ne hu]
        exact (and_iff_right hu).trans (hmarked.set u ws)
    · intro h p r' hr'
      rw [hlookup] at hr'
      split at hr'
      · cases hr'
      · exact ⟨r', hr', rfl⟩
    · intro h
      show (s₁.statusOff r₀.userId).count h ≤ s.count h
      rw [statusOff_eq]
      exact count_delMember_le s h₀ p₀ h
    · intro u m hm
      change (s₁.statusOff r₀.userId).marks u = some m at hm
      rw [statusOff_eq] at hm
      change update s.marks r₀.userId none u = some m at hm
      by_cases hu : u = r₀.userId
      · rw [hu, update_self] at hm
        cases hm
      · rwa [update_of_ne hu] at hm
    · intro ws u hu
      change u ∈ (s₁.statusOff r₀.userId).inHuddle ws at hu
      rw [statusOff_eq] at hu
      exact ((mem_inHuddleWithout hset u ws).mp hu).2
    · exact Tells.statusOff (s := s₁) hloud hset

theorem remove_snd (s : HuddleRedis) (h p : Ulid) (moving : Bool) :
    (s.remove h p moving).2 = (s.members h).lookup p := by
  cases hr : (s.members h).lookup p with
  | none => rw [remove_of_none hr]
  | some => simp only [remove, hr]

/-- What keeps people out one by one keeps them out. -/
theorem Leaving.foldl {β ε : Type*} {f : HuddleRedis × β → ε → HuddleRedis × β}
    (hf : ∀ out e, out.1.Linked → out.1.Marked → Leaving out.1 (f out e).1) (es : List ε)
    (out : HuddleRedis × β) (hlinked : out.1.Linked) (hmarked : out.1.Marked) :
    Leaving out.1 (es.foldl f out).1 := by
  induction es generalizing out with
  | nil => exact Leaving.refl hlinked hmarked
  | cons e _ ih =>
    have hfirst := hf out e hlinked hmarked
    exact hfirst.trans (ih (f out e) hfirst.linked hfirst.marked)

theorem leaving_sweepOne (out : HuddleRedis × List (Participation × ℕ × ℕ)) (e : Ulid × Ulid)
    (hlinked : out.1.Linked) (hmarked : out.1.Marked) : Leaving out.1 (sweepOne out e).1 := by
  have hremove := leaving_remove hlinked hmarked e.1 e.2
  have hsnd := remove_snd out.1 e.1 e.2 false
  unfold sweepOne
  split
  · next s' p heq => rwa [heq] at hremove
  · next s' heq =>
    rw [heq] at hremove hsnd
    refine hremove.trans ?_
    -- the participation is gone, and so is its deadline
    have hgone : (e.1, e.2) ∉ s'.deadlines := by
      rw [hremove.linked.deadlines, ← AList.lookup_eq_none, Option.eq_none_iff_forall_not_mem]
      intro r hr
      obtain ⟨r', hr', -⟩ := hremove.fewer e.1 e.2 r hr
      rw [← hsnd] at hr'
      cases hr'
    refine Leaving.of_same hremove.linked hremove.marked (fun _ _ => rfl) (fun e' => ?_)
      rfl rfl rfl rfl fun _ => le_rfl
    show e' ∈ s'.deadlines.erase e ↔ e' ∈ s'.deadlines
    rw [AList.mem_erase]
    refine and_iff_right_of_imp fun hmem => ?_
    rintro rfl
    exact hgone hmem

/-- **The sweep.** -/
theorem leaving_sweep (hlinked : s.Linked) (hmarked : s.Marked) (now max : ℕ) :
    Leaving s (s.sweep now max).1 :=
  Leaving.foldl leaving_sweepOne (s.expired now max) (s, []) hlinked hmarked

theorem clearOne_fst (h : Ulid) (out : HuddleRedis × List Participation) (p : Ulid) :
    (clearOne h out p).1 = (out.1.remove h p false).1 := by
  unfold clearOne
  split
  · next heq => rw [heq]
  · next heq => rw [heq]

theorem leaving_clearOne (h : Ulid) (out : HuddleRedis × List Participation) (p : Ulid)
    (hlinked : out.1.Linked) (hmarked : out.1.Marked) : Leaving out.1 (clearOne h out p).1 := by
  rw [clearOne_fst]
  exact leaving_remove hlinked hmarked h p

/-- Everybody that is removed is gone. -/
theorem lookup_foldl_clearOne (h : Ulid) (ps : List Ulid) (out : HuddleRedis × List Participation)
    (hlinked : out.1.Linked) (hmarked : out.1.Marked) {p : Ulid} (hp : p ∈ ps) :
    ((ps.foldl (clearOne h) out).1.members h).lookup p = none := by
  induction ps generalizing out with
  | nil => cases hp
  | cons q ps ih =>
    have hfirst := leaving_clearOne h out q hlinked hmarked
    rcases mem_cons.mp hp with rfl | hrest
    · have hrest := Leaving.foldl (leaving_clearOne h) ps _ hfirst.linked hfirst.marked
      rw [Option.eq_none_iff_forall_not_mem]
      intro r hr
      obtain ⟨r', hr', -⟩ := hrest.fewer h p r hr
      rw [clearOne_fst, lookup_remove hlinked, if_pos ⟨rfl, rfl⟩] at hr'
      cases hr'
    · exact ih _ hfirst.linked hfirst.marked hrest

variable (hlinked : s.Linked)
include hlinked

variable (hmarked : s.Marked)
include hmarked

/-- **The end of a huddle.** -/
theorem leaving_clear (h : Ulid) : Leaving s (s.clear h).1 := by
  have hfold := Leaving.foldl (leaving_clearOne h) (s.members h).keys (s, []) hlinked hmarked
  let out := ((s.members h).keys.foldl (clearOne h) (s, [])).1
  refine hfold.trans (Leaving.of_same hfold.linked hfold.marked (fun h' p => ?_) (fun _ => .rfl)
    rfl rfl rfl rfl fun h' => ?_)
  · show ((update out.members h ∅ h').lookup p).map _ = ((out.members h').lookup p).map _
    by_cases hh : h' = h
    · subst hh
      have hnone : (out.members h').lookup p = none := by
        by_cases hp : p ∈ (s.members h').keys
        · exact lookup_foldl_clearOne h' _ _ hlinked hmarked hp
        · rw [Option.eq_none_iff_forall_not_mem]
          intro r hr
          obtain ⟨r', hr', -⟩ := hfold.fewer h' p r hr
          exact hp (AList.mem_keys.mp (AList.lookup_isSome.mp (by rw [hr']; rfl)))
      rw [update_self, hnone, AList.lookup_empty]
    · rw [update_of_ne hh]
  · show (update out.members h ∅ h').keys.length ≤ (out.members h').keys.length
    by_cases hh : h' = h
    · subst hh
      rw [update_self, AList.keys_empty]
      exact Nat.zero_le _
    · rw [update_of_ne hh]

/-- Writing a participation that is there, of the same user. -/
theorem leaving_setMember {p : Ulid}
    {r r' : Participation} (hr : (s.members h).lookup p = some r) (huser : r'.userId = r.userId) :
    Leaving s (s.setMember h p r') := by
  have hp : p ∈ s.members h := AList.lookup_isSome.mp (by rw [hr]; rfl)
  refine Leaving.of_same hlinked hmarked (fun h' p' => ?_) (fun _ => .rfl) rfl rfl rfl rfl
    fun h' => ?_
  · show ((update s.members h ((s.members h).insert p r') h').lookup p').map _ = _
    by_cases hh : h' = h
    · subst hh
      rw [update_self]
      by_cases hp' : p' = p
      · rw [hp', AList.lookup_insert, hr, Option.map_some, Option.map_some, huser]
      · rw [AList.lookup_insert_ne hp']
    · rw [update_of_ne hh]
  · show (update s.members h ((s.members h).insert p r') h').keys.length ≤ _
    by_cases hh : h' = h
    · subst hh
      rw [update_self, AList.keys_insert, length_cons,
        length_erase_of_mem (AList.mem_keys.mp hp)]
      have hpos : 0 < (s.members h').keys.length := length_pos_of_mem (AList.mem_keys.mp hp)
      show (s.members h').keys.length - 1 + 1 ≤ (s.members h').keys.length
      omega
    · rw [update_of_ne hh]
      rfl

theorem leaving_setMuted (h p : Ulid) (muted : Bool) : Leaving s (s.setMuted h p muted).1 := by
  unfold setMuted
  split
  · exact Leaving.refl hlinked hmarked
  · next r hr => exact leaving_setMember hlinked hmarked hr rfl

theorem leaving_setTrack (h p : Ulid) (kind : HuddleTrackKind) (mid : String) (limit : ℕ) :
    Leaving s (s.setTrack h p kind mid limit).1 := by
  unfold setTrack
  split
  · exact Leaving.refl hlinked hmarked
  · next r hr =>
    split_ifs
    · exact Leaving.refl hlinked hmarked
    · exact Leaving.refl hlinked hmarked
    · refine leaving_setMember hlinked hmarked hr ?_
      cases kind with
      | _ => rfl

theorem leaving_joiningSoon (h u : Ulid) (til now : ℕ) : Leaving s (s.joiningSoon h u til now).1 :=
  Leaving.of_same hlinked hmarked (fun _ _ => rfl) (fun _ => .rfl) rfl rfl rfl rfl fun _ => le_rfl

theorem leaving_heartbeat (u h p : Ulid)
    (deadline : ℕ) : Leaving s (s.heartbeat u h p deadline).1 := by
  unfold heartbeat
  split_ifs with hkey hmem
  · refine Leaving.of_same hlinked hmarked (fun _ _ => rfl) (fun e => ?_) rfl rfl rfl rfl
      fun _ => le_rfl
    show e ∈ s.deadlines.insert (h, p) deadline ↔ e ∈ s.deadlines
    rw [AList.mem_insert]
    refine or_iff_right_of_imp ?_
    rintro rfl
    exact hmem
  · exact Leaving.refl hlinked hmarked
  · exact Leaving.refl hlinked hmarked

/-! ## Joining -/

omit hmarked

omit hlinked

/-- **What a user's moving out does**: the user has no participation and no key any
more, and the rest stays. -/
structure Evicts (s s' : HuddleRedis) (u : Ulid) : Prop where
  linked : s'.Linked
  key : s'.userKeys = Function.update s.userKeys u none
  marks : s'.marks = s.marks
  inHuddle : s'.inHuddle = s.inHuddle
  notices : s'.notices = s.notices
  fewer : ∀ h p r, (s'.members h).lookup p = some r → (s.members h).lookup p = some r
  kept : ∀ h p r, (s.members h).lookup p = some r → r.userId ≠ u → (s'.members h).lookup p = some r
  others : ∀ h, s'.count h ≤ s.others h u
  count : ∀ h, s'.count h ≤ s.count h

theorem evicts (hlinked : s.Linked) (u : Ulid) : Evicts s (s.evict u).1 u := by
  unfold evict
  split
  · next hkey =>
    refine { linked := hlinked, key := ?_, marks := rfl, inHuddle := rfl, notices := rfl,
             fewer := fun _ _ _ hr => hr, kept := fun _ _ _ hr _ => hr, others := fun h => ?_,
             count := fun _ => le_rfl }
    · rw [← hkey]
      exact (update_eq_self u s.userKeys).symm
    · unfold others
      rw [hkey]
  · next h₀ p₀ hkey =>
    obtain ⟨r₀, hr₀, rfl⟩ := (hlinked.index _ _ _).mp hkey
    have hlinked' := hlinked.remove h₀ p₀ true
    have hlookup := lookup_remove hlinked h₀ p₀ true
    rw [remove_eq hlinked hr₀] at hlinked' hlookup ⊢
    have hmem : p₀ ∈ s.members h₀ := AList.lookup_isSome.mp (by rw [hr₀]; rfl)
    refine { linked := hlinked', key := rfl, marks := rfl, inHuddle := rfl, notices := rfl,
             fewer := fun h p r hr => ?_, kept := fun h p r hr hu => ?_, others := fun h => ?_,
             count := fun h => count_delMember_le s h₀ p₀ h }
    · rw [hlookup] at hr
      split at hr
      · cases hr
      · exact hr
    · rw [hlookup, if_neg fun heq => ?_]
      · exact hr
      · rw [heq.1, heq.2, hr₀] at hr
        exact hu (congrArg _ (Option.some.inj hr).symm)
    · show (s.delMember h₀ p₀).count h ≤ s.others h r₀.userId
      unfold others
      simp only [hkey]
      by_cases hh : h₀ = h
      · subst hh
        rw [if_pos ⟨rfl, hmem⟩]
        show (update s.members h₀ ((s.members h₀).erase p₀) h₀).keys.length ≤ _
        rw [update_self, AList.keys_erase, length_erase_of_mem (AList.mem_keys.mp hmem)]
        exact le_rfl
      · rw [if_neg fun hboth => hh hboth.1]
        exact count_delMember_le s h₀ p₀ h

/-- The participations after one is entered. -/
theorem lookup_enter (s : HuddleRedis) (p : Participation) (deadline : ℕ) (h' p' : Ulid) :
    ((s.enter p deadline).members h').lookup p'
      = if h' = p.huddleId ∧ p' = p.id then some p else (s.members h').lookup p' := by
  show (update s.members p.huddleId ((s.members p.huddleId).insert p.id p) h').lookup p'
    = _
  by_cases hh : h' = p.huddleId
  · subst hh
    rw [update_self]
    by_cases hp : p' = p.id
    · rw [if_pos ⟨rfl, hp⟩, hp, AList.lookup_insert]
    · rw [if_neg fun hboth => hp hboth.2, AList.lookup_insert_ne hp]
  · rw [update_of_ne hh, if_neg fun hboth => hh hboth.1]

/-- Entering a participation under a number that is free, for a user who has
none. -/
theorem Linked.enter (h : s.Linked) (hkey : s.userKeys p.userId = none)
    (hfree : (s.members p.huddleId).lookup p.id = none) (deadline : ℕ) :
    (s.enter p deadline).Linked := by
  refine ⟨fun u h' p' => ?_, fun h' p' => ?_⟩
  · show update s.userKeys p.userId (some (p.huddleId, p.id)) u = _ ↔ _
    rw [lookup_enter]
    by_cases hu : u = p.userId
    · subst hu
      rw [update_self]
      by_cases heq : h' = p.huddleId ∧ p' = p.id
      · rw [if_pos heq, heq.1, heq.2]
        exact iff_of_true rfl ⟨p, rfl, rfl⟩
      · rw [if_neg heq, ← h.index, hkey]
        refine iff_of_false (fun hpair => heq ?_) (by simp)
        have hpair' := Option.some.inj hpair
        exact ⟨congrArg Prod.fst hpair'.symm, congrArg Prod.snd hpair'.symm⟩
    · rw [update_of_ne hu, h.index]
      by_cases heq : h' = p.huddleId ∧ p' = p.id
      · rw [if_pos heq, heq.1, heq.2, hfree]
        refine iff_of_false (by simp) fun ⟨r, hr, hru⟩ => hu ?_
        rw [← hru, ← Option.some.inj hr]
      · rw [if_neg heq]
  · show (h', p') ∈ s.deadlines.insert (p.huddleId, p.id) deadline
      ↔ p' ∈ (s.enter p deadline).members h'
    rw [← AList.lookup_isSome (s := (s.enter p deadline).members h'), lookup_enter,
      AList.mem_insert, h.deadlines]
    by_cases heq : h' = p.huddleId ∧ p' = p.id
    · rw [if_pos heq]
      exact iff_of_true (.inl (Prod.ext heq.1 heq.2)) rfl
    · rw [if_neg heq, AList.lookup_isSome]
      exact or_iff_right fun hpair => heq ⟨congrArg Prod.fst hpair, congrArg Prod.snd hpair⟩

theorem count_enter_le (s : HuddleRedis) (p : Participation) (deadline : ℕ) :
    (s.enter p deadline).count p.huddleId ≤ s.count p.huddleId + 1 := by
  show (update s.members p.huddleId ((s.members p.huddleId).insert p.id p)
    p.huddleId).keys.length ≤ _
  rw [update_self, AList.keys_insert, length_cons]
  exact Nat.succ_le_succ length_erase_le

theorem count_enter_of_ne (s : HuddleRedis) (p : Participation) (deadline : ℕ)
    (hh : h ≠ p.huddleId) : (s.enter p deadline).count h = s.count h := by
  show (update s.members p.huddleId ((s.members p.huddleId).insert p.id p)
    h).keys.length = _
  rw [update_of_ne hh]
  rfl

include hset

/-- **Either the mark stays, as it is nowhere but here, or it is taken away.** -/
theorem leaveOther_cases (ws : Ulid) :
    (s.leaveOther u ws = s ∧ ∀ ws', u ∈ s.inHuddle ws' → ws' = ws)
      ∨ (s.leaveOther u ws = s.statusOff u ∧ u ∉ s.inHuddle ws) := by
  unfold leaveOther
  cases hmark : s.marks u with
  | none =>
    refine .inl ⟨rfl, fun ws' hin => ?_⟩
    obtain ⟨m, hm, -⟩ := (hset ws').mp hin
    rw [hmark] at hm
    cases hm
  | some m =>
    have honly : ∀ ws', u ∈ s.inHuddle ws' → ws' = m.ws := fun ws' hin => by
      obtain ⟨m', hm', hws'⟩ := (hset ws').mp hin
      rw [hmark] at hm'
      rw [← hws', ← Option.some.inj hm']
    by_cases hws : m.ws = ws
    · refine .inl ⟨if_neg (not_not.mpr hws), fun ws' hin => ?_⟩
      rw [honly ws' hin, hws]
    · exact .inr ⟨if_pos hws, fun hin => hws (honly ws hin).symm⟩

omit hset

/-- **What a join does to marks, sets and notices**: the user is marked in the one
workspace, and nothing else changes but what is published of it. -/
structure Moves (s s' : HuddleRedis) (u : Ulid) (status : HuddleStatus) : Prop where
  members : s'.members = s.members
  deadlines : s'.deadlines = s.deadlines
  key : s'.userKeys = s.userKeys
  versions : s'.versions = s.versions
  marks : s'.marks =
    Function.update s.marks u (some ⟨status.workspaceId, status.channels, status.left⟩)
  inHuddle : ∀ ws u', u' ∈ s'.inHuddle ws ↔
    (u' = u ∧ ws = status.workspaceId) ∨ (u' ≠ u ∧ u' ∈ s.inHuddle ws)
  tells : s.Loud → ¬ Silent status.channels status.joined → Tells s s'

/-- Setting the mark of a user who is nowhere else. -/
theorem moves_mark (honly : ∀ ws', u ∈ s.inHuddle ws' → ws' = status.workspaceId) :
    Moves s (s.mark u status) u status := by
  have hmem : ∀ ws u', u' ∈ update s.inHuddle status.workspaceId
      (insert u (s.inHuddle status.workspaceId)) ws ↔
      (u' = u ∧ ws = status.workspaceId) ∨ (u' ≠ u ∧ u' ∈ s.inHuddle ws) := by
    intro ws u'
    by_cases hws : ws = status.workspaceId
    · subst hws
      rw [update_self, Finset.mem_insert]
      by_cases hu : u' = u
      · simp [hu]
      · simp [hu]
    · rw [update_of_ne hws]
      by_cases hu : u' = u
      · subst hu
        simp only [hws, and_false, ne_eq, not_true, false_and, or_false, iff_false]
        exact fun hin => hws (honly ws hin)
      · simp [hu]
  rw [mark_eq]
  refine { members := rfl, deadlines := rfl, key := rfl, versions := rfl, marks := rfl,
           inHuddle := hmem, tells := fun _ hloud => ?_ }
  by_cases hin : u ∈ s.inHuddle status.workspaceId
  · refine Tells.of_same ?_ ?_
    · simp [hin]
    · show update s.inHuddle status.workspaceId _ = s.inHuddle
      rw [Finset.insert_eq_self.mpr hin]
      exact update_eq_self _ _
  · refine Tells.of_notice
      (n := ⟨status.workspaceId, u, true, status.channels, status.joined⟩) ?_ (fun ws u' => ?_) ?_ ?_
    · simp [hin, hloud]
    · show _ ∨ (u' ∈ s.inHuddle ws ↔ u' ∈ update s.inHuddle status.workspaceId _ ws)
      rw [hmem]
      by_cases hu : u' = u
      · subst hu
        by_cases hws : ws = status.workspaceId
        · exact .inl ⟨hws, rfl⟩
        · refine .inr (iff_of_false (fun hin' => hws (honly ws hin')) ?_)
          simp [hws]
      · exact .inr (by simp [hu])
    · simp [hin]
    · simp

include hset

/-- **Marking a user who joins.** -/
theorem moves_join (status : HuddleStatus) :
    Moves s ((s.leaveOther u status.workspaceId).mark u status) u status := by
  rcases leaveOther_cases hset status.workspaceId with ⟨hstay, honly⟩ | ⟨hoff, hout⟩
  · rw [hstay]
    exact moves_mark honly
  · rw [hoff]
    have hmem := mem_inHuddleWithout hset
    have hsets : (s.statusOff u).inHuddle = s.inHuddleWithout u := by rw [statusOff_eq]
    have hnowhere : ∀ ws, u ∉ (s.statusOff u).inHuddle ws := fun ws hin => by
      rw [hsets, hmem] at hin
      exact hin.1 rfl
    have hmark : Moves (s.statusOff u) ((s.statusOff u).mark u status) u status :=
      moves_mark fun ws hin => absurd hin (hnowhere ws)
    have hrest : (s.statusOff u).members = s.members ∧ (s.statusOff u).deadlines = s.deadlines
        ∧ (s.statusOff u).userKeys = s.userKeys ∧ (s.statusOff u).versions = s.versions
        ∧ (s.statusOff u).marks = update s.marks u none := by
      rw [statusOff_eq]
      exact ⟨rfl, rfl, rfl, rfl, rfl⟩
    obtain ⟨hmembers, hdeadlines, hkeys, hversions, hmarks⟩ := hrest
    refine { members := hmark.members.trans hmembers, deadlines := hmark.deadlines.trans hdeadlines,
             key := hmark.key.trans hkeys, versions := hmark.versions.trans hversions, marks := ?_,
             inHuddle := fun ws u' => ?_, tells := fun hloud hsilent => ?_ }
    · rw [hmark.marks, hmarks, update_idem]
    · rw [hmark.inHuddle, hsets, hmem]
      by_cases hu : u' = u
      · simp [hu]
      · simp [hu]
    · have hloud' : (s.statusOff u).Loud := by
        intro u' m hm
        rw [hmarks] at hm
        by_cases hu : u' = u
        · rw [hu, update_self] at hm
          cases hm
        · rw [update_of_ne hu] at hm
          exact hloud u' m hm
      refine (Tells.statusOff hloud hset).trans (hmark.tells hloud' hsilent) fun ws u' => ?_
      rw [hmark.inHuddle, hsets, hmem]
      by_cases hu : u' = u
      · subst hu
        by_cases hws : ws = status.workspaceId
        · subst hws
          exact .inl (by simp [hout])
        · exact .inr (by simp [hws])
      · exact .inr (by simp [hu])

omit hset

/-- **What a join does that is not refused.** -/
structure Enters (s s' : HuddleRedis) (p : Participation) (status : HuddleStatus) : Prop where
  linked : s'.Linked
  marked : s'.Marked
  lookup : ∀ h q r, (s'.members h).lookup q = some r ↔
    (h = p.huddleId ∧ q = p.id ∧ r = p) ∨ ((s.members h).lookup q = some r ∧ r.userId ≠ p.userId)
  count : s'.count p.huddleId ≤ s.others p.huddleId p.userId + 1
  countElse : ∀ h, h ≠ p.huddleId → s'.count h ≤ s.count h
  marks : s'.marks =
    Function.update s.marks p.userId (some ⟨status.workspaceId, status.channels, status.left⟩)
  tells : s.Loud → ¬ Silent status.channels status.joined → Tells s s'

theorem join_refused (hfull : limit ≤ s.others p.huddleId p.userId) :
    s.join p deadline limit status = (s, none) := by
  unfold join
  rw [if_pos hfull]

/-- **Joining**, under a number that nobody else has in the huddle. -/
theorem enters_join (hlinked : s.Linked) (hmarked : s.Marked)
    (hfree : ∀ r, (s.members p.huddleId).lookup p.id = some r → r.userId = p.userId)
    (hroom : ¬ limit ≤ s.others p.huddleId p.userId) :
    Enters s (s.join p deadline limit status).1 p status := by
  unfold join
  rw [if_neg hroom]
  have hevict := evicts hlinked p.userId
  have hkey : (s.evict p.userId).1.userKeys p.userId = none := by
    rw [hevict.key, update_self]
  -- the user has left, so nobody has the number
  have hout : ∀ h q r, ((s.evict p.userId).1.members h).lookup q = some r → r.userId ≠ p.userId := by
    intro h q r hr hu
    have hthere := (hevict.linked.index _ h q).mpr ⟨r, hr, hu⟩
    rw [hkey] at hthere
    cases hthere
  have hnone : ((s.evict p.userId).1.members p.huddleId).lookup p.id = none := by
    rw [Option.eq_none_iff_forall_not_mem]
    intro r hr
    exact hout _ _ r hr (hfree r (hevict.fewer _ _ r hr))
  let t := (s.evict p.userId).1.enter p deadline
  have hlinked' : t.Linked := hevict.linked.enter hkey hnone deadline
  have hmarks : t.marks = s.marks := hevict.marks
  have hsets : t.inHuddle = s.inHuddle := hevict.inHuddle
  have hset : ∀ ws, p.userId ∈ t.inHuddle ws ↔ ∃ m, t.marks p.userId = some m ∧ m.ws = ws := by
    intro ws
    rw [hsets, hmarks]
    exact hmarked.set p.userId ws
  have hmoves := moves_join hset status
  show Enters s ((t.leaveOther p.userId status.workspaceId).mark p.userId status) p status
  have hlookup : ∀ h q, ((((t.leaveOther p.userId status.workspaceId).mark p.userId status).members
      h).lookup q) = (t.members h).lookup q := fun h q => by rw [hmoves.members]
  have hcount : ∀ h, ((t.leaveOther p.userId status.workspaceId).mark p.userId status).count h
      = t.count h := fun h => by
    show (((t.leaveOther p.userId status.workspaceId).mark p.userId status).members h).keys.length
      = (t.members h).keys.length
    rw [hmoves.members]
  refine { linked := ?_, marked := ⟨fun u => ?_, fun u ws => ?_⟩, lookup := fun h q r => ?_,
           count := ?_, countElse := fun h hh => ?_, marks := ?_, tells := fun hloud hsilent => ?_ }
  · refine hlinked'.congr _ (fun h q => by rw [hlookup]) (fun e => ?_) hmoves.key
    rw [hmoves.deadlines]
  · rw [hmoves.marks, hmoves.key, hmarks]
    show _ ↔ (update (s.evict p.userId).1.userKeys p.userId (some (p.huddleId, p.id))
      u).isSome
    by_cases hu : u = p.userId
    · rw [hu, update_self, update_self]
      exact .rfl
    · rw [update_of_ne hu, update_of_ne hu, hevict.key, update_of_ne hu]
      exact hmarked.key u
  · rw [hmoves.inHuddle, hmoves.marks, hmarks, hsets]
    by_cases hu : u = p.userId
    · rw [hu, update_self]
      simp [eq_comm]
    · rw [update_of_ne hu]
      simp only [hu, false_and, false_or, ne_eq, not_false_eq_true, true_and]
      exact hmarked.set u ws
  · rw [hlookup, lookup_enter]
    by_cases heq : h = p.huddleId ∧ q = p.id
    · rw [if_pos heq]
      refine ⟨fun hr => .inl ⟨heq.1, heq.2, (Option.some.inj hr).symm⟩, ?_⟩
      rintro (⟨-, -, rfl⟩ | ⟨hr, hu⟩)
      · rfl
      · rw [heq.1, heq.2] at hr
        exact absurd (hfree r hr) hu
    · rw [if_neg heq]
      refine ⟨fun hr => .inr ⟨hevict.fewer h q r hr, hout h q r hr⟩, ?_⟩
      rintro (⟨hh, hq, -⟩ | ⟨hr, hu⟩)
      · exact absurd ⟨hh, hq⟩ heq
      · exact hevict.kept h q r hr hu
  · rw [hcount]
    exact (count_enter_le _ p deadline).trans (Nat.succ_le_succ (hevict.others p.huddleId))
  · rw [hcount]
    exact (count_enter_of_ne _ p deadline hh).le.trans (hevict.count h)
  · rw [hmoves.marks, hmarks]
  · have hloud' : t.Loud := by
      intro u m hm
      rw [hmarks] at hm
      exact hloud u m hm
    have htells : Tells s t := Tells.of_same hevict.notices hsets
    exact htells.trans (hmoves.tells hloud' hsilent) fun ws u => .inl (by rw [hsets])

end HuddleRedis

/-! ## Runs of scripts -/

/-- The structures, with what the joins said: the workspace of each participation,
and how many each huddle may have. -/
structure HuddleLog where
  store : HuddleRedis
  workspaceOf : Ulid × Ulid → Ulid
  limitOf : Ulid → ℕ

/-- One script. A join that was not refused says in which workspace it is, and how many
the huddle may have. -/
def HuddleLog.call (l : HuddleLog) : HuddleCall → HuddleLog
  | .join p deadline limit status =>
    if (l.store.join p deadline limit status).2.isSome then
      { store := l.store.call (.join p deadline limit status)
        workspaceOf := Function.update l.workspaceOf (p.huddleId, p.id) status.workspaceId
        limitOf := Function.update l.limitOf p.huddleId limit }
    else { l with store := l.store.call (.join p deadline limit status) }
  | c => { l with store := l.store.call c }

/-- **Scripts one after the other**, from Redis without huddles. -/
def huddleCalls : TransitionSystem HuddleLog HuddleCall where
  init l := l.store = HuddleRedis.empty
  step l c := some (l.call c)

/-- The number of a join is not that of another user's participation in the
huddle. -/
def FreshId (l : HuddleLog) : HuddleCall → Prop
  | .join p _ _ _ =>
    ∀ r ∈ (l.store.members p.huddleId).lookup p.id, r.userId = p.userId
  | _ => True

/-- The mark of a join can be told of, when it is set and when it goes. -/
def Announced : HuddleCall → Prop
  | .join _ _ _ status => ¬ HuddleRedis.Silent status.channels status.joined
      ∧ ¬ HuddleRedis.Silent status.channels status.left
  | _ => True

instance (l : HuddleLog) (c : HuddleCall) : Decidable (FreshId l c) := by
  unfold FreshId
  cases c <;> infer_instance

instance (c : HuddleCall) : Decidable (Announced c) := by
  unfold Announced
  cases c <;> infer_instance

namespace HuddleLog

open HuddleRedis

variable {l : HuddleLog} {c : HuddleCall}

/-- **A script is a join that enters, or nobody enters.** -/
theorem call_cases (hlinked : l.store.Linked) (hmarked : l.store.Marked) (hfresh : FreshId l c) :
    (∃ p deadline limit status, c = .join p deadline limit status ∧
        Enters l.store (l.call c).store p status ∧
        (l.call c).workspaceOf =
          update l.workspaceOf (p.huddleId, p.id) status.workspaceId ∧
        (l.call c).limitOf = update l.limitOf p.huddleId limit ∧
        l.store.others p.huddleId p.userId < limit) ∨
    (Leaving l.store (l.call c).store ∧ (l.call c).workspaceOf = l.workspaceOf ∧
      (l.call c).limitOf = l.limitOf) := by
  cases c with
  | join p deadline limit status =>
    by_cases hfull : limit ≤ l.store.others p.huddleId p.userId
    · have hstay : l.call (.join p deadline limit status) = l := by
        simp only [call, HuddleRedis.call, join_refused hfull, Option.isSome_none,
          Bool.false_eq_true, if_false]
      rw [hstay]
      exact .inr ⟨Leaving.refl hlinked hmarked, rfl, rfl⟩
    · have henters : Enters l.store (l.store.join p deadline limit status).1 p status :=
        enters_join hlinked hmarked hfresh hfull
      have hjoined : (l.store.join p deadline limit status).2.isSome := by
        unfold join
        rw [if_neg hfull]
        rfl
      refine .inl ⟨p, deadline, limit, status, rfl, ?_⟩
      simp only [call, hjoined, if_true]
      exact ⟨henters, trivial, trivial, not_le.mp hfull⟩
  | heartbeat user huddle participant deadline =>
    exact .inr ⟨leaving_heartbeat hlinked hmarked user huddle participant deadline, rfl, rfl⟩
  | remove huddle participant =>
    exact .inr ⟨leaving_remove hlinked hmarked huddle participant, rfl, rfl⟩
  | sweep now max => exact .inr ⟨leaving_sweep hlinked hmarked now max, rfl, rfl⟩
  | setMuted huddle participant muted =>
    exact .inr ⟨leaving_setMuted hlinked hmarked huddle participant muted, rfl, rfl⟩
  | setTrack huddle participant kind mid screenLimit =>
    exact .inr ⟨leaving_setTrack hlinked hmarked huddle participant kind mid screenLimit, rfl, rfl⟩
  | joiningSoon huddle user til now =>
    exact .inr ⟨leaving_joiningSoon hlinked hmarked huddle user til now, rfl, rfl⟩
  | clear huddle => exact .inr ⟨leaving_clear hlinked hmarked huddle, rfl, rfl⟩

/-- **The structures say the same**, and what the joins said. -/
structure Agrees (l : HuddleLog) : Prop where
  linked : l.store.Linked
  marked : l.store.Marked
  placed : ∀ h p r, (l.store.members h).lookup p = some r →
    ∃ m, l.store.marks r.userId = some m ∧ m.ws = l.workspaceOf (h, p)
  limited : ∀ h, l.store.count h ≤ l.limitOf h

theorem agrees_start (h : huddleCalls.init l) : l.Agrees := by
  have hempty : l.store = empty := h
  refine ⟨hempty ▸ linked_empty, hempty ▸ marked_empty, fun h p r hr => ?_, fun h => ?_⟩
  · rw [hempty] at hr
    have hnone : (empty.members h).lookup p = none := AList.lookup_empty p
    cases hnone.symm.trans hr
  · rw [hempty]
    exact Nat.zero_le _

theorem Agrees.call (h : l.Agrees) (hfresh : FreshId l c) : (l.call c).Agrees := by
  rcases call_cases h.linked h.marked hfresh with
    ⟨p, deadline, limit, status, rfl, henters, hworkspace, hlimit, hroom⟩ |
    ⟨hleaving, hworkspace, hlimit⟩
  · refine ⟨henters.linked, henters.marked, fun h' q r hr => ?_, fun h' => ?_⟩
    · rw [henters.marks, hworkspace]
      rcases (henters.lookup h' q r).mp hr with ⟨rfl, rfl, rfl⟩ | ⟨hold, hu⟩
      · rw [update_self, update_self]
        exact ⟨_, rfl, rfl⟩
      · have hne : (h', q) ≠ (p.huddleId, p.id) := fun heq => by
          have hh : h' = p.huddleId := congrArg Prod.fst heq
          have hq : q = p.id := congrArg Prod.snd heq
          rw [hh, hq] at hold
          exact hu (hfresh r hold)
        rw [update_of_ne hu, update_of_ne hne]
        exact h.placed h' q r hold
    · rw [hlimit]
      by_cases hh : h' = p.huddleId
      · rw [hh, update_self]
        exact henters.count.trans hroom
      · rw [update_of_ne hh]
        exact (henters.countElse h' hh).trans (h.limited h')
  · refine ⟨hleaving.linked, hleaving.marked, fun h' p r hr => ?_, fun h' => ?_⟩
    · obtain ⟨r₀, hr₀, hu⟩ := hleaving.fewer h' p r hr
      obtain ⟨m, hm, hws⟩ := h.placed h' p r₀ hr₀
      -- the participation is still there, so its user still has a mark
      have hkey := (hleaving.linked.index r.userId h' p).mpr ⟨r, hr, rfl⟩
      have hsome : ((l.call c).store.marks r.userId).isSome :=
        (hleaving.marked.key r.userId).mpr (by rw [hkey]; rfl)
      obtain ⟨m', hm'⟩ := Option.isSome_iff_exists.mp hsome
      have hsame := (hleaving.marks r.userId m' hm').symm.trans (hu ▸ hm)
      rw [hworkspace, hm', Option.some.inj hsame]
      exact ⟨m, rfl, hws⟩
    · rw [hlimit]
      exact (hleaving.count h').trans (h.limited h')

theorem agrees_of_reachableBy (h : huddleCalls.ReachableBy FreshId l) : l.Agrees := by
  refine h.invariant (fun _ => agrees_start) fun l c l' hl hfresh hstep => ?_
  obtain rfl : l.call c = l' := Option.some.inj hstep
  exact hl.call hfresh

/-- **What one script publishes** is who entered and who left. -/
theorem Agrees.tells (h : l.Agrees) (hfresh : FreshId l c) (hannounced : Announced c)
    (hloud : l.store.Loud) : Tells l.store (l.call c).store ∧ (l.call c).store.Loud := by
  rcases call_cases h.linked h.marked hfresh with
    ⟨p, deadline, limit, status, rfl, henters, -, -, -⟩ | ⟨hleaving, -, -⟩
  · refine ⟨henters.tells hloud hannounced.1, fun u m hm => ?_⟩
    rw [henters.marks] at hm
    by_cases hu : u = p.userId
    · rw [hu, update_self] at hm
      rw [← Option.some.inj hm]
      exact hannounced.2
    · rw [update_of_ne hu] at hm
      exact hloud u m hm
  · exact ⟨hleaving.tells hloud, hleaving.loud hloud⟩

/-- **On and off in turn**, starting with on, and the last is how it is. -/
def Told (s : HuddleRedis) : Prop :=
  ∀ ws u, (false :: s.noticesOf ws u).IsChain (· ≠ ·) ∧
    (false :: s.noticesOf ws u).getLast? = some (decide (u ∈ s.inHuddle ws))

theorem told_empty : Told empty := by
  intro ws u
  exact ⟨isChain_singleton _, rfl⟩

theorem Told.tells {s s' : HuddleRedis} (h : Told s) (htells : Tells s s') : Told s' := by
  intro ws u
  obtain ⟨hchain, hlast⟩ := h ws u
  rw [htells ws u]
  unfold turned
  split
  · next hsame =>
    rw [append_nil, hlast]
    exact ⟨hchain, by simp only [hsame]⟩
  · next hturned =>
    rw [← cons_append]
    refine ⟨isChain_append.mpr ⟨hchain, isChain_singleton _, ?_⟩, ?_⟩
    · intro before hbefore after hafter
      rw [hlast] at hbefore
      obtain rfl : decide (u ∈ s.inHuddle ws) = before := Option.some.inj hbefore
      obtain rfl : decide (u ∈ s'.inHuddle ws) = after := Option.some.inj hafter
      exact fun heq => hturned (decide_eq_decide.mp heq)
    · exact getLast?_concat

theorem told_of_reachableBy (h : huddleCalls.ReachableBy (fun l c => FreshId l c ∧ Announced c) l) :
    l.store.Loud ∧ Told l.store := by
  have hall : l.Agrees ∧ l.store.Loud ∧ Told l.store := by
    refine h.invariant (I := fun l => l.Agrees ∧ l.store.Loud ∧ Told l.store) (fun l hinit => ?_)
      fun l c l' hl hadmitted hstep => ?_
    · refine ⟨agrees_start hinit, ?_, ?_⟩
      · rw [show l.store = empty from hinit]
        exact fun u m hm => absurd hm (by simp [empty])
      · rw [show l.store = empty from hinit]
        exact told_empty
    · obtain rfl : l.call c = l' := Option.some.inj hstep
      obtain ⟨htells, hloud⟩ := hl.1.tells hadmitted.1 hadmitted.2 hl.2.1
      exact ⟨hl.1.call hadmitted.1, hloud, hl.2.2.tells htells⟩
  exact hall.2

/-- **The structures of the huddle store agree.** In every run of scripts in which no
join takes the number of another user's participation in the same huddle: a user
has at most one participation; the user's key names it and no other; every
participation has a deadline and every deadline a participation; a workspace's set
holds who has a participation that was joined there; and no huddle has more
participations than its last join allowed. Where every mark can be told of, what
was published of a user and a workspace is on and off in turn, and every script
publishes who entered and who left the set, and nothing else. -/
theorem huddle_structures_agree (h : huddleCalls.ReachableBy FreshId l) :
    (∀ h p r h' p' r', (l.store.members h).lookup p = some r →
      (l.store.members h').lookup p' = some r' → r.userId = r'.userId → h = h' ∧ p = p') ∧
    (∀ u h p, l.store.userKeys u = some (h, p) ↔
      ∃ r, (l.store.members h).lookup p = some r ∧ r.userId = u) ∧
    (∀ h p, (h, p) ∈ l.store.deadlines ↔ p ∈ l.store.members h) ∧
    (∀ ws u, u ∈ l.store.inHuddle ws ↔
      ∃ h p r, (l.store.members h).lookup p = some r ∧ r.userId = u ∧ l.workspaceOf (h, p) = ws) ∧
    (∀ h, l.store.count h ≤ l.limitOf h) ∧
    (huddleCalls.ReachableBy (fun l c => FreshId l c ∧ Announced c) l →
      (∀ ws u, (false :: l.store.noticesOf ws u).IsChain (· ≠ ·)) ∧
      ∀ c, FreshId l c → Announced c → ∀ ws u, (l.call c).store.noticesOf ws u
        = l.store.noticesOf ws u ++ l.store.turned (l.call c).store ws u) := by
  have hagrees := agrees_of_reachableBy h
  refine ⟨fun h p r h' p' r' hr hr' hu => ?_, hagrees.linked.index, hagrees.linked.deadlines,
    fun ws u => ?_, hagrees.limited, fun hannounced => ?_⟩
  · have hkey := (hagrees.linked.index r.userId h p).mpr ⟨r, hr, rfl⟩
    have hkey' := (hagrees.linked.index r.userId h' p').mpr ⟨r', hr', hu.symm⟩
    have hpair := Option.some.inj (hkey.symm.trans hkey')
    exact ⟨congrArg Prod.fst hpair, congrArg Prod.snd hpair⟩
  · rw [hagrees.marked.set]
    constructor
    · rintro ⟨m, hm, rfl⟩
      have hkey : (l.store.userKeys u).isSome := (hagrees.marked.key u).mp (by rw [hm]; rfl)
      obtain ⟨⟨h, p⟩, hhp⟩ := Option.isSome_iff_exists.mp hkey
      obtain ⟨r, hr, rfl⟩ := (hagrees.linked.index u h p).mp hhp
      obtain ⟨m', hm', hws⟩ := hagrees.placed h p r hr
      rw [hm] at hm'
      exact ⟨h, p, r, hr, rfl, by rw [← hws, Option.some.inj hm']⟩
    · rintro ⟨h, p, r, hr, rfl, rfl⟩
      exact hagrees.placed h p r hr
  · obtain ⟨hloud, htold⟩ := told_of_reachableBy hannounced
    exact ⟨fun ws u => (htold ws u).1, fun c hfresh hc => (hagrees.tells hfresh hc hloud).1⟩

/-- A log before the first script. -/
def new : HuddleLog := ⟨empty, fun _ => 0, fun _ => 0⟩

/-- A participation as it is when it is joined. -/
def joined (h p u : Ulid) : Participation := ⟨p, h, u, "", "", false, 0⟩

/-- Telling one channel of a workspace. -/
def status (ws : Ulid) : HuddleStatus := ⟨ws, ["users"], "in", "out"⟩

/-- A user joins a huddle of one workspace, moves to one of another workspace, and
is swept out of it. -/
theorem moved_and_swept_out : ∃ l : HuddleLog, l.store.noticesOf 1 10 = [true, false] ∧
    l.store.noticesOf 2 10 = [true, false] ∧ l.store.count 7 = 1 ∧ l.store.count 8 = 0 ∧
    (∀ u h p, l.store.userKeys u = some (h, p) ↔
      ∃ r, (l.store.members h).lookup p = some r ∧ r.userId = u) ∧
    (∀ h p, (h, p) ∈ l.store.deadlines ↔ p ∈ l.store.members h) ∧
    ∀ ws u, (false :: l.store.noticesOf ws u).IsChain (· ≠ ·) := by
  have hrun : (huddleCalls.runBy (fun l c => FreshId l c ∧ Announced c) new
      [.join (joined 7 100 10) 30 8 (status 1), .join (joined 7 101 11) 90 8 (status 1),
        .join (joined 8 102 10) 30 8 (status 2), .setMuted 7 101 true,
        .heartbeat 11 7 101 95, .sweep 50 10]).any (fun l =>
      decide (l.store.noticesOf 1 10 = [true, false] ∧ l.store.noticesOf 2 10 = [true, false] ∧
        l.store.count 7 = 1 ∧ l.store.count 8 = 0)) = true := by
    decide +kernel
  obtain ⟨l, hreach, htest⟩ :=
    TransitionSystem.exists_of_runBy hrun (show huddleCalls.init new from rfl)
  obtain ⟨hone, htwo, hseven, height⟩ := of_decide_eq_true htest
  obtain ⟨-, hkeys, hdeadlines, -, -, htold⟩ :=
    huddle_structures_agree (hreach.mono fun _ _ hadmitted => hadmitted.1)
  exact ⟨l, hone, htwo, hseven, height, hkeys, hdeadlines, (htold hreach).1⟩

/-- **A join can write over a participation.** Two users join a huddle under one
number: the key of the first names a participation that is the second's. -/
theorem overwritten_participation : ∃ l, huddleCalls.Reachable l ∧
    l.store.userKeys 10 = some (7, 100) ∧ l.store.userKeys 11 = some (7, 100) ∧
    ¬ ∃ r, (l.store.members 7).lookup 100 = some r ∧ r.userId = 10 := by
  have hrun : (huddleCalls.run new
      [.join (joined 7 100 10) 30 8 (status 1), .join (joined 7 100 11) 30 8 (status 1)]).any
      (fun l => decide (l.store.userKeys 10 = some (7, 100) ∧ l.store.userKeys 11 = some (7, 100) ∧
        (l.store.members 7).lookup 100 = some (joined 7 100 11))) = true := by
    decide +kernel
  obtain ⟨l, hreach, htest⟩ :=
    TransitionSystem.exists_of_run hrun (show huddleCalls.init new from rfl)
  obtain ⟨hfirst, hsecond, hr⟩ := of_decide_eq_true htest
  refine ⟨l, hreach, hfirst, hsecond, fun ⟨r, hr', hu⟩ => ?_⟩
  rw [hr] at hr'
  rw [← Option.some.inj hr'] at hu
  exact nomatch hu

end HuddleLog

end Hibari
