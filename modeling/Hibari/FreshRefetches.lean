import Hibari.Refetches

/-!
# What is refetched is fresh

While events come in turn, an answer on its way is what the server is at some moment that is not before
the last event, or somebody waits to ask again; and a list that is shown is so too, name by name, or a
request for it is in flight (`Fresh`). When nothing is in flight and every event has come, the lists are
those of the server (`refetches_are_fresh`).
-/

namespace Hibari

open List Option Function Request

namespace RefetchState

variable {me : Ulid} {isPublic : Ulid → Bool} {s s' P : RefetchState} {key : RefetchKey}
  {e : MemberEvent} {r w : Ulid} {a : RefetchAction}

theorem serverAt_succ (he : s.log[s.seen]? = some e) :
    s.serverAt me (s.seen + 1) = (s.serverAt me s.seen).apply me e := by
  show (s.log.take (s.seen + 1)).foldl _ s.base = _
  rw [take_add_one, he, foldl_append]
  rfl

/-! ## What is fresh -/

/-- A list of a room is, name by name, that of a moment not before the last event. -/
def RoomFresh (me : Ulid) (s : RefetchState) (r : Ulid) (list : Finset Ulid) : Prop :=
  SetAtSome (fun j => (s.serverAt me j).roomMembers r) list s.seen s.log.length

/-- So is the list of the workspace. -/
def MembersFresh (me : Ulid) (s : RefetchState) (w : Ulid) (list : Finset Ulid) : Prop :=
  SetAtSome (fun j => (s.serverAt me j).members w) list s.seen s.log.length

/-- So is a number of members. -/
def CountFresh (me : Ulid) (s : RefetchState) (r : Ulid) (n : ℕ) : Prop :=
  AtSome (fun j => n = ((s.serverAt me j).roomMembers r).card) s.seen s.log.length

/-- What was asked for is to come, or was applied. -/
def Served (s : RefetchState) (x : RefetchKey × ℕ) : Prop :=
  x.1 ∈ s.waiting ∨ (∃ q ∈ s.inflight, q.key = x.1 ∧ x.2 ≤ q.started) ∨
    ∃ y ∈ s.applied, y.1 = x.1 ∧ x.2 ≤ y.2

/-- **What is kept** while events come in turn. -/
structure Fresh (me : Ulid) (s : RefetchState) : Prop where
  seenLe : s.seen ≤ s.log.length
  readLe : ∀ q ∈ s.inflight, ∀ k ∈ q.read, k ≤ s.log.length
  /-- An answer on its way is fresh, or somebody asks again. -/
  read : ∀ q ∈ s.inflight, ∀ k ∈ q.read, q.key ∈ s.waiting ∨
    AtSome (fun j => q.key.brings (s.serverAt me j) = q.key.brings (s.serverAt me k)) s.seen
      s.log.length
  alone : (s.inflight.map Request.key).Pairwise fun a b => a.waits → a ≠ b
  waiting : ∀ key ∈ s.waiting, key.waits ∧ s.InFlight key
  list : ∀ r list, s.roomMembers r = some list → s.InFlight (.members r) ∨ s.RoomFresh me r list
  count : ∀ r n, s.memberCount r = some n →
    s.removedRooms r = true ∨ s.Counting r ∨ s.CountFresh me r n
  members : ∀ w list, s.members w = some list → s.InFlight (.wsmembers w) ∨ s.MembersFresh me w list
  asked : ∀ x ∈ s.asked, x.2 ≤ s.seen ∧ s.Served x

theorem fresh_of_init (hs : (system me isPublic).init s) : s.Fresh me := by
  obtain ⟨hlog, hseen, hinflight, hwaiting, hlists, hcounts, hmembers, -, hasked, -⟩ := hs
  have hnone : ∀ q, q ∉ s.inflight := by
    rw [hinflight]
    exact fun q => not_mem_nil
  refine ⟨?_, fun q hq => absurd hq (hnone q), fun q hq => absurd hq (hnone q), ?_, ?_, ?_, ?_, ?_, ?_⟩
  · rw [hseen]
    exact Nat.zero_le _
  · rw [hinflight]
    exact List.Pairwise.nil
  · rw [hwaiting]
    exact nofun
  · rw [hlists]
    exact nofun
  · rw [hcounts]
    exact nofun
  · rw [hmembers]
    exact nofun
  · rw [hasked]
    exact nofun

/-! ## Asking -/

/-- **More is asked for**, and nothing else changes. -/
structure Grown (s s' : RefetchState) : Prop where
  base : s'.base = s.base
  log : s'.log = s.log
  seen : s'.seen = s.seen
  memberCount : s'.memberCount = s.memberCount
  removedRooms : s'.removedRooms = s.removedRooms
  applied : s'.applied = s.applied
  inflight : s.inflight ⊆ s'.inflight
  new : ∀ q ∈ s'.inflight, q ∈ s.inflight ∨ q.read = none
  alone : ((s.inflight.map Request.key).Pairwise fun a b => a.waits → a ≠ b) →
    (s'.inflight.map Request.key).Pairwise fun a b => a.waits → a ≠ b
  waiting : s.waiting ⊆ s'.waiting
  waits : ∀ key ∈ s'.waiting, key ∈ s.waiting ∨ key.waits ∧ s'.InFlight key
  list : ∀ r list, s'.roomMembers r = some list →
    s.roomMembers r = some list ∨ s'.InFlight (.members r)
  members : ∀ w list, s'.members w = some list → s.members w = some list ∨ s'.InFlight (.wsmembers w)
  asked : ∀ x ∈ s'.asked, x ∈ s.asked ∨ x.2 ≤ s'.seen ∧ s'.Served x

namespace Grown

theorem refl (s : RefetchState) : Grown s s :=
  ⟨rfl, rfl, rfl, rfl, rfl, rfl, List.Subset.refl _, fun _ => .inl, id, List.Subset.refl _,
    fun _ => .inl, fun _ _ => .inl, fun _ _ => .inl, fun _ => .inl⟩

section

variable (h : Grown s s')
include h

theorem inFlight (hkey : s.InFlight key) : s'.InFlight key := by
  obtain ⟨q, hq, heq⟩ := hkey
  exact ⟨q, h.inflight hq, heq⟩

theorem counting (hr : s.Counting r) : s'.Counting r := by
  obtain ⟨q, hq, heq⟩ := hr
  exact ⟨q, h.inflight hq, heq⟩

theorem served {x : RefetchKey × ℕ} (hx : s.Served x) : s'.Served x := by
  refine hx.imp (fun hwait => h.waiting hwait) (Or.imp (fun ⟨q, hq, hqx⟩ => ?_) fun ⟨y, hy, hyx⟩ => ?_)
  · exact ⟨q, h.inflight hq, hqx⟩
  · exact ⟨y, h.applied ▸ hy, hyx⟩

theorem trans {t : RefetchState} (h' : Grown s' t) : Grown s t := by
  refine ⟨h'.base.trans h.base, h'.log.trans h.log, h'.seen.trans h.seen,
    h'.memberCount.trans h.memberCount, h'.removedRooms.trans h.removedRooms,
    h'.applied.trans h.applied, List.Subset.trans h.inflight h'.inflight, fun q hq => ?_,
    fun hp => h'.alone (h.alone hp), List.Subset.trans h.waiting h'.waiting, fun key hkey => ?_,
    fun r list hlist => ?_, fun w list hlist => ?_, fun x hx => ?_⟩
  · exact (h'.new q hq).elim (h.new q) .inr
  · refine (h'.waits key hkey).elim (fun hk => (h.waits key hk).imp_right fun hin => ?_) .inr
    exact ⟨hin.1, h'.inFlight hin.2⟩
  · exact (h'.list r list hlist).elim (fun hl => (h.list r list hl).imp_right h'.inFlight) .inr
  · exact (h'.members w list hlist).elim (fun hl => (h.members w list hl).imp_right h'.inFlight) .inr
  · refine (h'.asked x hx).elim (fun hx => (h.asked x hx).imp_right fun hserved => ?_) .inr
    exact ⟨h'.seen ▸ hserved.1, h'.served hserved.2⟩

end

end Grown

variable {list list' : Finset Ulid} {u x : Ulid} {f : Ulid → Finset Ulid} {i : ℕ}
    {q : Request RefetchKey}

/-- An entry that is being loaded is for what is asked for. -/
theorem loading_eq (s : RefetchState) (key : RefetchKey) : ∃ lists members,
    s.loading key = { s with roomMembers := lists, members := members } ∧
    (∀ r list, lists r = some list → s.roomMembers r = some list ∨ key = .members r) ∧
    ∀ w list, members w = some list → s.members w = some list ∨ key = .wsmembers w := by
  cases key with
  | members r =>
    refine ⟨_, _, rfl, fun r' list hlist => ?_, fun w list => .inl⟩
    by_cases h : r' = r
    · exact .inr (congrArg RefetchKey.members h.symm)
    · rw [update_of_ne h] at hlist
      exact .inl hlist
  | wsmembers w =>
    refine ⟨_, _, rfl, fun r list => .inl, fun w' list hlist => ?_⟩
    by_cases h : w' = w
    · exact .inr (congrArg RefetchKey.wsmembers h.symm)
    · rw [update_of_ne h] at hlist
      exact .inl hlist
  | _ => exact ⟨_, _, rfl, fun r list => .inl, fun w list => .inl⟩

/-- What is in flight after a request. -/
theorem start_inflight (s : RefetchState) (key : RefetchKey) :
    (s.start key).inflight = s.inflight ++ [⟨key, s.seen, none⟩] ∧
      ((∃ q ∈ s.inflight, q.key = key) → key.waits = false) ∨
    (s.start key).inflight = s.inflight ∧ s.InFlight key := by
  by_cases hin : s.InFlight key
  · have honce : Request.once key s.seen s.inflight = s.inflight := by
      obtain ⟨q, hq, heq⟩ := hin
      exact if_pos (List.any_eq_true.mpr ⟨q, hq, decide_eq_true heq⟩)
    cases key with
    | change => exact .inl ⟨rfl, fun _ => rfl⟩
    | _ => exact .inr ⟨honce, hin⟩
  · refine .inl ⟨?_, fun h => absurd h hin⟩
    have honce : Request.once key s.seen s.inflight = s.inflight ++ [⟨key, s.seen, none⟩] := by
      refine if_neg fun hany => hin ?_
      obtain ⟨q, hq, heq⟩ := List.any_eq_true.mp hany
      exact ⟨q, hq, of_decide_eq_true heq⟩
    cases key with
    | change => rfl
    | _ => exact honce

/-- It leaves the rest. -/
theorem start_eq (s : RefetchState) (key : RefetchKey) : ∃ lists members,
    s.start key = { s with
      inflight := (s.start key).inflight, roomMembers := lists, members := members } ∧
    (∀ r list, lists r = some list → s.roomMembers r = some list ∨ key = .members r) ∧
    ∀ w list, members w = some list → s.members w = some list ∨ key = .wsmembers w := by
  obtain ⟨lists, members, heq, hlists, hmembers⟩ := s.loading_eq key
  cases key with
  | change r => exact ⟨_, _, rfl, fun r list => .inl, fun w list => .inl⟩
  | _ =>
    refine ⟨lists, members, ?_, hlists, hmembers⟩
    show ({ s.loading _ with inflight := _ } : RefetchState) = _
    rw [heq]
    rfl

theorem start_inFlight (s : RefetchState) (key : RefetchKey) : (s.start key).InFlight key := by
  rcases s.start_inflight key with ⟨heq, -⟩ | ⟨heq, hin⟩
  · refine ⟨⟨key, s.seen, none⟩, ?_, rfl⟩
    rw [heq]
    exact mem_append_right _ (.head _)
  · obtain ⟨q, hq, hkey⟩ := hin
    exact ⟨q, heq ▸ hq, hkey⟩

theorem start_new (hnone : ¬ s.InFlight key) : ⟨key, s.seen, none⟩ ∈ (s.start key).inflight := by
  rcases s.start_inflight key with ⟨heq, -⟩ | ⟨-, hin⟩
  · rw [heq]
    exact mem_append_right _ (.head _)
  · exact absurd hin hnone

theorem grown_start (s : RefetchState) (key : RefetchKey) : Grown s (s.start key) := by
  have hin := s.start_inFlight key
  have hinflight := s.start_inflight key
  obtain ⟨lists, members, heq, hlists, hmembers⟩ := s.start_eq key
  set l := (s.start key).inflight
  rw [heq] at hin ⊢
  refine ⟨rfl, rfl, rfl, rfl, rfl, rfl, ?_, fun q hq => ?_, fun hp => ?_, List.Subset.refl _,
    fun _ => .inl, fun r list hlist => ?_, fun w list hlist => ?_, fun _ => .inl⟩
  · show s.inflight ⊆ l
    rcases hinflight with ⟨h, -⟩ | ⟨h, -⟩
    · rw [h]
      exact subset_append_left _ _
    · rw [h]
      exact List.Subset.refl _
  · replace hq : q ∈ l := hq
    rcases hinflight with ⟨h, -⟩ | ⟨h, -⟩
    · rw [h] at hq
      refine (mem_append.mp hq).imp_right fun hnew => ?_
      rw [mem_singleton.mp hnew]
    · exact .inl (h ▸ hq)
  · show (l.map Request.key).Pairwise _
    rcases hinflight with ⟨h, hfree⟩ | ⟨h, -⟩
    · rw [h, map_append]
      refine pairwise_append.mpr ⟨hp, pairwise_singleton _ _, fun a ha b hb hwaits => ?_⟩
      obtain ⟨q, hq, rfl⟩ := List.mem_map.mp ha
      obtain rfl := mem_singleton.mp hb
      intro hkey
      rw [hkey, hfree ⟨q, hq, hkey⟩] at hwaits
      exact Bool.noConfusion hwaits
    · rw [h]
      exact hp
  · refine (hlists r list hlist).imp_right fun hkey => ?_
    rw [← hkey]
    exact hin
  · refine (hmembers w list hlist).imp_right fun hkey => ?_
    rw [← hkey]
    exact hin

/-- `reload` sends, or waits for what is in flight. -/
theorem reload_cases (s : RefetchState) (key : RefetchKey) :
    s.InFlight key ∧ s.reload key = { s with waiting := key :: s.waiting } ∨
      ¬ s.InFlight key ∧ s.reload key = s.start key := by
  by_cases h : s.InFlight key
  · obtain ⟨q, hq, heq⟩ := h
    exact .inl ⟨⟨q, hq, heq⟩, if_pos (List.any_eq_true.mpr ⟨q, hq, decide_eq_true heq⟩)⟩
  · refine .inr ⟨h, if_neg fun hany => h ?_⟩
    obtain ⟨q, hq, heq⟩ := List.any_eq_true.mp hany
    exact ⟨q, hq, of_decide_eq_true heq⟩

theorem grown_reload (hwaits : key.waits = true) (s : RefetchState) :
    Grown s (s.reload key) ∧ (s.reload key).InFlight key := by
  rcases s.reload_cases key with ⟨hin, heq⟩ | ⟨-, heq⟩
  · rw [heq]
    refine ⟨⟨rfl, rfl, rfl, rfl, rfl, rfl, List.Subset.refl _, fun _ => .inl, id,
      subset_cons_self _ _, fun key' hkey' => ?_, fun _ _ => .inl, fun _ _ => .inl,
      fun _ => .inl⟩, hin⟩
    refine (mem_cons.mp hkey').symm.imp_right fun h => ?_
    rw [h]
    exact ⟨hwaits, hin⟩
  · rw [heq]
    exact ⟨grown_start s key, s.start_inFlight key⟩

theorem grown_asked (x : RefetchKey × ℕ) (h : Grown s s') (hle : x.2 ≤ s'.seen) (hx : s'.Served x) :
    Grown s { s' with asked := x :: s.asked } := by
  refine ⟨h.base, h.log, h.seen, h.memberCount, h.removedRooms, h.applied, h.inflight, h.new, h.alone,
    h.waiting, h.waits, h.list, h.members, fun y hy => ?_⟩
  rcases mem_cons.mp hy with rfl | hold
  · exact .inr ⟨hle, hx⟩
  · exact .inl hold

theorem grown_ask (hnone : ¬ s.InFlight key) : Grown s (s.ask key) ∧ (s.ask key).InFlight key := by
  have h := grown_start s key
  refine ⟨grown_asked (key, s.seen) h h.seen.ge (.inr (.inl ⟨_, start_new hnone, rfl, le_rfl⟩)),
    s.start_inFlight key⟩

/-- A handler asks again. -/
theorem grown_askAgain (hwaits : key.waits = true) (s : RefetchState) :
    Grown s (s.askAgain key) ∧ (s.askAgain key).InFlight key ∧
      (s.InFlight key → key ∈ (s.askAgain key).waiting) := by
  obtain ⟨h, hin⟩ := grown_reload hwaits s
  rcases s.reload_cases key with ⟨hbefore, heq⟩ | ⟨hnone, heq⟩
  · have hmem : key ∈ (s.reload key).waiting := by
      rw [heq]
      exact .head _
    exact ⟨grown_asked (key, s.seen) h h.seen.ge (.inl hmem), hin, fun _ => hmem⟩
  · refine ⟨grown_asked (key, s.seen) h h.seen.ge (.inr (.inl ⟨⟨key, s.seen, none⟩, ?_, rfl, le_rfl⟩)),
      hin,
      fun hbefore => absurd hbefore hnone⟩
    rw [heq]
    exact start_new hnone

/-! ## Steps -/

/-- **Fresh once it is asked for**: what is not in flight must be fresh before. -/
theorem fresh_of_grown (hg : Grown P s') (hseenLe : P.seen ≤ P.log.length)
    (hreadLe : ∀ q ∈ P.inflight, ∀ k ∈ q.read, k ≤ P.log.length)
    (hread : ∀ q ∈ P.inflight, ∀ k ∈ q.read, q.key ∈ s'.waiting ∨
      AtSome (fun j => q.key.brings (P.serverAt me j) = q.key.brings (P.serverAt me k)) P.seen
        P.log.length)
    (halone : (P.inflight.map Request.key).Pairwise fun a b => a.waits → a ≠ b)
    (hwaiting : ∀ key ∈ P.waiting, key.waits ∧ s'.InFlight key)
    (hlist : ∀ r list, P.roomMembers r = some list →
      s'.InFlight (.members r) ∨ P.RoomFresh me r list)
    (hcount : ∀ r n, P.memberCount r = some n →
      P.removedRooms r = true ∨ s'.Counting r ∨ P.CountFresh me r n)
    (hmembers : ∀ w list, P.members w = some list →
      s'.InFlight (.wsmembers w) ∨ P.MembersFresh me w list)
    (hasked : ∀ x ∈ P.asked, x.2 ≤ P.seen ∧ s'.Served x) : s'.Fresh me := by
  have hat : ∀ j, s'.serverAt me j = P.serverAt me j := by
    intro j
    unfold serverAt
    rw [hg.base, hg.log]
  refine ⟨?_, fun q hq k hk => ?_, fun q hq k hk => ?_, hg.alone halone, fun key hkey => ?_,
    fun r list hl => ?_, fun r n hn => ?_, fun w list hl => ?_, fun x hx => ?_⟩
  · rw [hg.seen, hg.log]
    exact hseenLe
  · rw [hg.log]
    rcases hg.new q hq with hold | hnone
    · exact hreadLe q hold k hk
    · rw [hnone] at hk
      exact absurd hk (not_mem_none k)
  · rw [hg.seen, hg.log]
    simp only [hat]
    rcases hg.new q hq with hold | hnone
    · exact hread q hold k hk
    · rw [hnone] at hk
      exact absurd hk (not_mem_none k)
  · exact (hg.waits key hkey).elim (hwaiting key) id
  · refine (hg.list r list hl).elim (fun hold => (hlist r list hold).imp_right fun hf => ?_) .inl
    unfold RoomFresh
    simp only [hat, hg.seen, hg.log]
    exact hf
  · rw [hg.memberCount] at hn
    rw [hg.removedRooms]
    refine (hcount r n hn).imp_right (Or.imp_right fun hf => ?_)
    unfold CountFresh
    simp only [hat, hg.seen, hg.log]
    exact hf
  · refine (hg.members w list hl).elim (fun hold => (hmembers w list hold).imp_right fun hf => ?_)
      .inl
    unfold MembersFresh
    simp only [hat, hg.seen, hg.log]
    exact hf
  · refine (hg.asked x hx).elim (fun hold => ?_) id
    exact (hasked x hold).imp_left fun hle => hle.trans hg.seen.ge

section

variable (h : s.Fresh me)
include h

theorem Fresh.grow (hg : Grown s s') : s'.Fresh me :=
  fresh_of_grown hg h.seenLe h.readLe
    (fun q hq k hk => (h.read q hq k hk).imp_left fun hwait => hg.waiting hwait) h.alone
    (fun key hkey => (h.waiting key hkey).imp_right hg.inFlight)
    (fun r list hl => (h.list r list hl).imp_left hg.inFlight)
    (fun r n hn => (h.count r n hn).imp_right (Or.imp_left hg.counting))
    (fun w list hl => (h.members w list hl).imp_left hg.inFlight)
    fun x hx => (h.asked x hx).imp_right hg.served

/-- **The next event**: what is not asked for must be fresh after it. -/
theorem Fresh.next (hlt : s.seen < s.log.length)
    (hP : P.base = s.base ∧ P.log = s.log ∧ P.seen = s.seen + 1 ∧ P.inflight = s.inflight ∧
      P.waiting = s.waiting ∧ P.asked = s.asked ∧ P.applied = s.applied)
    (hg : Grown P s')
    (hread : ∀ q ∈ s.inflight, ∀ k ∈ q.read, k ≤ s.seen →
      q.key.brings (s.serverAt me (s.seen + 1)) = q.key.brings (s.serverAt me s.seen) ∨
        q.key ∈ s'.waiting)
    (hlist : ∀ r list, P.roomMembers r = some list →
      s'.InFlight (.members r) ∨ P.RoomFresh me r list)
    (hcount : ∀ r n, P.memberCount r = some n →
      P.removedRooms r = true ∨ s'.Counting r ∨ P.CountFresh me r n)
    (hmembers : ∀ w list, P.members w = some list →
      s'.InFlight (.wsmembers w) ∨ P.MembersFresh me w list) : s'.Fresh me := by
  obtain ⟨hbase, hlog, hseen, hinflight, hwaiting, hasked, happlied⟩ := hP
  have hat : ∀ j, P.serverAt me j = s.serverAt me j := by
    intro j
    unfold serverAt
    rw [hbase, hlog]
  refine fresh_of_grown hg ?_ ?_ (fun q hq k hk => ?_) ?_ (fun key hkey => ?_) hlist hcount hmembers
    fun x hx => ?_
  · rw [hseen, hlog]
    exact hlt
  · rw [hinflight, hlog]
    exact h.readLe
  · rw [hinflight] at hq
    rw [hseen, hlog]
    simp only [hat]
    rcases h.read q hq k hk with hwait | hsome
    · exact .inl (hg.waiting (hwaiting ▸ hwait))
    · -- it was read after the event, or the event does not change it
      rcases Nat.lt_or_ge s.seen k with hgt | hle
      · exact .inr ⟨k, hgt, h.readLe q hq k hk, rfl⟩
      · refine (hread q hq k hk hle).symm.imp_right fun hsame => ?_
        exact hsome.shrink hlt fun heq => hsame.trans heq
  · rw [hinflight]
    exact h.alone
  · rw [hwaiting] at hkey
    obtain ⟨hwaits, q, hq, heq⟩ := h.waiting key hkey
    exact ⟨hwaits, q, hg.inflight (hinflight ▸ hq), heq⟩
  · obtain ⟨hle, hserved⟩ := h.asked x (hasked ▸ hx)
    refine ⟨hseen ▸ hle.trans (Nat.le_succ _), hg.served ?_⟩
    unfold Served at hserved ⊢
    rw [hwaiting, hinflight, happlied]
    exact hserved

variable (he : s.log[s.seen]? = some e)
include he

/-- **A list of a room** after an event: what the handler leaves says for each user what the server does
now, or what was said before of a user for whom nothing changes. -/
theorem Fresh.list_next
    (hP : P.base = s.base ∧ P.log = s.log ∧ P.seen = s.seen + 1 ∧ P.inflight = s.inflight)
    (hg : Grown P s') (hl : s.roomMembers r = some list)
    (hpoint : ∀ u, (u ∈ list' ↔ u ∈ ((s.serverAt me s.seen).apply me e).roomMembers r) ∨
      (u ∈ list' ↔ u ∈ list) ∧ (u ∈ (s.serverAt me s.seen).roomMembers r ↔
        u ∈ ((s.serverAt me s.seen).apply me e).roomMembers r)) :
    s'.InFlight (.members r) ∨ P.RoomFresh me r list' := by
  obtain ⟨hbase, hlog, hseen, hinflight⟩ := hP
  rw [← serverAt_succ he] at hpoint
  refine (h.list r list hl).imp (fun hin => hg.inFlight ?_) fun hfresh => ?_
  · obtain ⟨q, hq, heq⟩ := hin
    exact ⟨q, hinflight ▸ hq, heq⟩
  · have hlt : s.seen < s.log.length := (List.getElem?_eq_some_iff.mp he).1
    have hnext := hfresh.shrink hlt hpoint
    unfold RoomFresh serverAt
    rw [hbase, hlog, hseen]
    exact hnext

/-- **The list of a workspace** after an event. -/
theorem Fresh.members_next
    (hP : P.base = s.base ∧ P.log = s.log ∧ P.seen = s.seen + 1 ∧ P.inflight = s.inflight)
    (hg : Grown P s') (hl : s.members w = some list)
    (hpoint : ∀ u, (u ∈ list' ↔ u ∈ ((s.serverAt me s.seen).apply me e).members w) ∨
      (u ∈ list' ↔ u ∈ list) ∧ (u ∈ (s.serverAt me s.seen).members w ↔
        u ∈ ((s.serverAt me s.seen).apply me e).members w)) :
    s'.InFlight (.wsmembers w) ∨ P.MembersFresh me w list' := by
  obtain ⟨hbase, hlog, hseen, hinflight⟩ := hP
  rw [← serverAt_succ he] at hpoint
  refine (h.members w list hl).imp (fun hin => hg.inFlight ?_) fun hfresh => ?_
  · obtain ⟨q, hq, heq⟩ := hin
    exact ⟨q, hinflight ▸ hq, heq⟩
  · have hlt : s.seen < s.log.length := (List.getElem?_eq_some_iff.mp he).1
    have hnext := hfresh.shrink hlt hpoint
    unfold MembersFresh serverAt
    rw [hbase, hlog, hseen]
    exact hnext

/-- **A number of members** after an event that does not change it, or where it is what it is now. -/
theorem Fresh.count_next {n : ℕ}
    (hP : P.base = s.base ∧ P.log = s.log ∧ P.seen = s.seen + 1 ∧ P.inflight = s.inflight)
    (hg : Grown P s') (hremoved : s.removedRooms r = true → P.removedRooms r = true)
    (hn : s.memberCount r = some n)
    (hsame : ((s.serverAt me s.seen).apply me e).roomMembers r = (s.serverAt me s.seen).roomMembers r ∨
      n = (((s.serverAt me s.seen).apply me e).roomMembers r).card) :
    P.removedRooms r = true ∨ s'.Counting r ∨ P.CountFresh me r n := by
  obtain ⟨hbase, hlog, hseen, hinflight⟩ := hP
  rw [← serverAt_succ he] at hsame
  have hlt : s.seen < s.log.length := (List.getElem?_eq_some_iff.mp he).1
  have hfresh : s.CountFresh me r n ∨ n = ((s.serverAt me (s.seen + 1)).roomMembers r).card →
      P.CountFresh me r n := by
    intro hor
    unfold CountFresh serverAt
    rw [hbase, hlog, hseen]
    rcases hor with hfresh | hnow
    · refine hsame.elim (fun heq => AtSome.shrink hfresh hlt fun hcard => ?_) fun hnow => ?_
      · exact hcard.trans (congrArg Finset.card heq.symm)
      · exact ⟨s.seen + 1, le_rfl, hlt, hnow⟩
    · exact ⟨s.seen + 1, le_rfl, hlt, hnow⟩
  refine (h.count r n hn).imp hremoved (Or.imp (fun hin => hg.counting ?_) fun hf => hfresh (.inl hf))
  obtain ⟨q, hq, heq⟩ := hin
  exact ⟨q, hinflight ▸ hq, heq⟩

/-! ### What handlers ask -/

end

theorem inFlight_start {key' : RefetchKey} (h : (s.start key').InFlight key) :
    key = key' ∨ s.InFlight key := by
  obtain ⟨q, hq, rfl⟩ := h
  rcases s.start_inflight key' with ⟨heq, -⟩ | ⟨heq, -⟩
  · rw [heq] at hq
    rcases mem_append.mp hq with hold | hnew
    · exact .inr ⟨q, hold, rfl⟩
    · exact .inl (congrArg Request.key (mem_singleton.mp hnew))
  · exact .inr ⟨q, heq ▸ hq, rfl⟩

theorem askMembers_cases (s : RefetchState) (w u : Ulid) :
    (s.askMembers w u = s.askAgain (.wsmembers w) ∧ ∃ list, s.members w = some list ∧ u ∉ list) ∨
    (s.askMembers w u = s ∧ ∀ list, s.members w = some list → u ∈ list) := by
  unfold askMembers
  cases hlist : s.members w with
  | none => exact .inr ⟨rfl, nofun⟩
  | some list =>
    by_cases hu : u ∈ list
    · refine .inr ⟨if_neg ?_, fun list' h => some.inj h ▸ hu⟩
      rw [any_some, decide_eq_false (not_not.mpr hu)]
      exact Bool.false_ne_true
    · refine .inl ⟨if_pos ?_, list, rfl, hu⟩
      rw [any_some]
      exact decide_eq_true hu

/-- What it leaves. -/
theorem askMembers_frame (s : RefetchState) (w u : Ulid) :
    (s.askMembers w u).roomMembers = s.roomMembers ∧ (s.askMembers w u).memberCount = s.memberCount ∧
      ∀ key, (s.askMembers w u).InFlight key → key = .wsmembers w ∨ s.InFlight key := by
  rcases s.askMembers_cases w u with ⟨heq, -⟩ | ⟨heq, -⟩
  · rw [heq]
    unfold askAgain
    rcases s.reload_cases (.wsmembers w) with ⟨hin, heq⟩ | ⟨hnone, heq⟩
    · rw [heq]
      exact ⟨rfl, rfl, fun key => .inr⟩
    · rw [heq]
      exact ⟨rfl, rfl, fun key hkey => inFlight_start hkey⟩
  · rw [heq]
    exact ⟨rfl, rfl, fun key => .inr⟩

/-- Who is not in the list is asked for. -/
theorem grown_askMembers (s : RefetchState) (w u : Ulid) :
    Grown s (s.askMembers w u) ∧ ∀ list, s.members w = some list → u ∉ list →
      (s.askMembers w u).InFlight (.wsmembers w) ∧
        (s.InFlight (.wsmembers w) → .wsmembers w ∈ (s.askMembers w u).waiting) := by
  rcases s.askMembers_cases w u with ⟨heq, -⟩ | ⟨heq, hall⟩
  · rw [heq]
    obtain ⟨hg, hin, hwait⟩ := grown_askAgain (rfl : RefetchKey.waits (.wsmembers w) = true) s
    exact ⟨hg, fun _ _ _ => ⟨hin, hwait⟩⟩
  · rw [heq]
    exact ⟨Grown.refl s, fun list hl hu => absurd (hall list hl) hu⟩

/-- The number of members is asked for where it is known. -/
theorem grown_askCount (hnone : (s.memberCount r).isSome → ¬ s.InFlight (.roomInfo r)) :
    Grown s (s.askCount r) ∧ ∀ n, s.memberCount r = some n → (s.askCount r).Counting r := by
  unfold askCount
  split
  · next hsome =>
    obtain ⟨hg, q, hq, heq⟩ := grown_ask (hnone hsome)
    exact ⟨hg, fun _ _ => ⟨q, hq, by rw [heq]; rfl⟩⟩
  · next hsome =>
    refine ⟨Grown.refl s, fun n hn => absurd ?_ hsome⟩
    rw [hn]
    rfl

/-! ### Each event -/

/-- What the handler of `member.joined` asks for. -/
theorem grown_memberJoined (hturn : s.EventInTurn me isPublic (.memberJoined w x u))
    (hs' : applyEvent me isPublic { s with seen := s.seen + 1 } (.memberJoined w x u) = s') :
    Grown { s with seen := s.seen + 1 } s' ∧
    (∀ list, s.members w = some list → u ∉ list → s'.InFlight (.wsmembers w) ∧
      (s.InFlight (.wsmembers w) → .wsmembers w ∈ s'.waiting)) ∧
    (u = me → s'.InFlight (.joined x)) ∧
    (u ≠ me → (∀ list, s.roomMembers x = some list → s'.InFlight (.members x)) ∧
      ∀ n, s.memberCount x = some n → s'.Counting x) := by
  obtain ⟨halone, -, -⟩ := hturn
  obtain ⟨hg, hasked⟩ := grown_askMembers { s with seen := s.seen + 1 } w u
  obtain ⟨hlists, hcounts, hin⟩ := askMembers_frame { s with seen := s.seen + 1 } w u
  set t := askMembers { s with seen := s.seen + 1 } w u
  have hfree : ∀ key ∈ s.asksAlone me (.memberJoined w x u), key ≠ .wsmembers w → ¬ t.InFlight key :=
    fun key hkey hne ht => halone key hkey ((hin key ht).resolve_left hne)
  have hmembers : ∀ {s''}, Grown t s'' → ∀ list, s.members w = some list → u ∉ list →
      s''.InFlight (.wsmembers w) ∧ (s.InFlight (.wsmembers w) → .wsmembers w ∈ s''.waiting) := by
    intro s'' hg' list hl hu
    obtain ⟨hflight, hwait⟩ := hasked list hl hu
    exact ⟨hg'.inFlight hflight, fun hs => hg'.waiting (hwait hs)⟩
  by_cases hme : u = me
  · replace hs' : t.ask (.joined x) = s' := by
      rw [← hs']
      exact (if_pos hme).symm
    have hmem : RefetchKey.joined x ∈ s.asksAlone me (.memberJoined w x u) := by
      show _ ∈ if u = me then [RefetchKey.joined x] else _
      rw [if_pos hme]
      exact .head _
    obtain ⟨hg', hflight⟩ := grown_ask (hfree _ hmem nofun)
    rw [hs'] at hg' hflight
    exact ⟨hg.trans hg', hmembers hg', fun _ => hflight, fun hne => absurd hme hne⟩
  · set t' := if (t.roomMembers x).isSome then t.ask (.members x) else t with ht'
    replace hs' : t'.askCount x = s' := by
      rw [← hs']
      exact (if_neg hme).symm
    have halone' : s.asksAlone me (.memberJoined w x u) =
        (if (s.roomMembers x).isSome then [.members x] else []) ++
          if (s.memberCount x).isSome then [.roomInfo x] else [] := if_neg hme
    have hfirst : Grown t t' ∧ (∀ list, s.roomMembers x = some list → t'.InFlight (.members x)) ∧
        t'.memberCount = t.memberCount ∧ ∀ key, t'.InFlight key → key = .members x ∨ t.InFlight key := by
      rw [ht', hlists]
      show _ ∧ _ ∧ _ ∧ _
      split
      · next hsome =>
        have hmem : RefetchKey.members x ∈ s.asksAlone me (.memberJoined w x u) := by
          rw [halone']
          refine mem_append_left _ ?_
          rw [if_pos hsome]
          exact .head _
        obtain ⟨hg', hflight⟩ := grown_ask (hfree _ hmem nofun)
        exact ⟨hg', fun _ _ => hflight, rfl, fun key hkey => inFlight_start hkey⟩
      · next hsome =>
        refine ⟨Grown.refl t, fun list hl => absurd ?_ hsome, rfl, fun key => .inr⟩
        show (s.roomMembers x).isSome = true
        rw [hl]
        rfl
    obtain ⟨hg', hflight, hcount', hin'⟩ := hfirst
    have hnone : (t'.memberCount x).isSome → ¬ t'.InFlight (.roomInfo x) := by
      intro hsome hkey
      have hmem : RefetchKey.roomInfo x ∈ s.asksAlone me (.memberJoined w x u) := by
        rw [halone']
        refine mem_append_right _ ?_
        rw [hcount', hcounts] at hsome
        rw [if_pos hsome]
        exact .head _
      exact hfree _ hmem nofun ((hin' _ hkey).resolve_left nofun)
    obtain ⟨hg'', hcounting⟩ := grown_askCount hnone
    rw [hs'] at hg'' hcounting
    rw [hcount', hcounts] at hcounting
    exact ⟨(hg.trans hg').trans hg'', hmembers (hg'.trans hg''), fun h => absurd h hme,
      fun _ => ⟨fun list hl => hg''.inFlight (hflight list hl), hcounting⟩⟩

variable (h : s.Fresh me)
include h

theorem Fresh.memberJoined
    (he : s.log[s.seen]? = some (.memberJoined w x u))
    (hturn : s.EventInTurn me isPublic (.memberJoined w x u)) :
    (applyEvent me isPublic { s with seen := s.seen + 1 } (.memberJoined w x u)).Fresh me := by
  have hlt : s.seen < s.log.length := (List.getElem?_eq_some_iff.mp he).1
  obtain ⟨hg, hmembers, hself, hother⟩ := grown_memberJoined hturn rfl
  set P : RefetchState := { s with seen := s.seen + 1 }
  have hsame : P.base = s.base ∧ P.log = s.log ∧ P.seen = s.seen + 1 ∧ P.inflight = s.inflight :=
    ⟨rfl, rfl, rfl, rfl⟩
  obtain ⟨-, hstale, hown⟩ := hturn
  set s' := applyEvent me isPublic P (.memberJoined w x u)
  set m := s.serverAt me s.seen
  have hafter : s.serverAt me (s.seen + 1) = m.apply me (.memberJoined w x u) := serverAt_succ he
  have hroom : ∀ r, r ≠ x → (m.apply me (.memberJoined w x u)).roomMembers r = m.roomMembers r :=
    fun r hr => update_of_ne hr _ _
  have hroomx : (m.apply me (.memberJoined w x u)).roomMembers x = insert u (m.roomMembers x) :=
    update_self _ _ _
  have hws : ∀ w', w' ≠ w → (m.apply me (.memberJoined w x u)).members w' = m.members w' :=
    fun w' hw => update_of_ne hw _ _
  have hwsw : (m.apply me (.memberJoined w x u)).members w = insert u (m.members w) :=
    update_self _ _ _
  refine h.next (P := P) hlt ⟨rfl, rfl, rfl, rfl, rfl, rfl, rfl⟩ hg (fun q hq k hk hle => ?_)
    (fun r list hl => ?_) (fun r n hn => ?_) fun w' list hl => ?_
  · refine (hstale q hq k hk hle).imp_right fun hagain => ?_
    by_cases hany : (s.members w).any fun list => u ∉ list
    · replace hagain : q.key ∈ if (s.members w).any fun list => u ∉ list then
        [RefetchKey.wsmembers w] else [] := hagain
      rw [if_pos hany] at hagain
      have hkey := mem_singleton.mp hagain
      obtain ⟨list, hl, hu⟩ := (Option.any_eq_true _ _).mp hany
      rw [hkey]
      exact (hmembers list hl (of_decide_eq_true hu)).2 ⟨q, hq, hkey⟩
    · replace hagain : q.key ∈ if (s.members w).any fun list => u ∉ list then
        [RefetchKey.wsmembers w] else [] := hagain
      rw [if_neg hany] at hagain
      cases hagain
  · have hunchanged : ∀ v, (r ≠ x ∨ v ≠ u) → (v ∈ m.roomMembers r ↔
        v ∈ (m.apply me (.memberJoined w x u)).roomMembers r) := by
      rintro v (hne | hne)
      · rw [hroom r hne]
      · by_cases hr : r = x
        · rw [hr, hroomx, Finset.mem_insert, or_iff_right hne]
        · rw [hroom r hr]
    by_cases hr : r = x
    · by_cases hme : u = me
      · have howner : r ∈ ownRoom me isPublic (.memberJoined w x u) := by
          show r ∈ if u = me then some x else none
          rw [if_pos hme, hr]
          rfl
        rcases hown r howner with heq | ⟨hin | hlist, -⟩
        · rw [hafter] at heq
          exact h.list_next he hsame hg hl fun v => .inr ⟨.rfl, by rw [heq]⟩
        · exact .inl (hg.inFlight hin)
        · refine h.list_next he hsame hg hl fun v => ?_
          by_cases hv : v = u
          · have hself := hlist list hl
            rw [hafter] at hself
            rw [hv.trans hme]
            exact .inl hself
          · exact .inr ⟨.rfl, hunchanged v (.inr hv)⟩
      · rw [hr] at hl ⊢
        exact .inl ((hother hme).1 list hl)
    · exact h.list_next he hsame hg hl fun v =>
        .inr ⟨.rfl, hunchanged v (.inl hr)⟩
  · by_cases hr : r = x
    · rw [hr] at hn ⊢
      by_cases hme : u = me
      · obtain ⟨q, hq, heq⟩ := hself hme
        exact .inr (.inl ⟨q, hq, by rw [heq]; rfl⟩)
      · exact .inr (.inl ((hother hme).2 n hn))
    · exact h.count_next he hsame hg id hn (.inl (hroom r hr))
  · by_cases hw : w' = w
    · rw [hw] at hl ⊢
      by_cases hu : u ∈ list
      · refine h.members_next he hsame hg hl fun v => ?_
        rw [hwsw, Finset.mem_insert]
        by_cases hv : v = u
        · exact .inl (iff_of_true (hv ▸ hu) (.inl hv))
        · exact .inr ⟨.rfl, (or_iff_right hv).symm⟩
      · exact .inl (hmembers list hl hu).1
    · exact h.members_next he hsame hg hl fun v => .inr ⟨.rfl, by rw [hws w' hw]⟩

/-- An event that the handler has nothing to ask for: the lists are as they were, but for what it takes
out. -/
theorem Fresh.patched (he : s.log[s.seen]? = some e)
    (hturn : s.EventInTurn me isPublic e)
    (hP : P.base = s.base ∧ P.log = s.log ∧ P.seen = s.seen + 1 ∧ P.inflight = s.inflight ∧
      P.waiting = s.waiting ∧ P.asked = s.asked ∧ P.applied = s.applied)
    (hg : Grown P s') (hagain : s.asksAgain e = [])
    (hcounts : P.memberCount = s.memberCount)
    (hremoved : ∀ r, s.removedRooms r = true → P.removedRooms r = true)
    (hlist : ∀ r list', P.roomMembers r = some list' → s'.InFlight (.members r) ∨ ∃ list,
      s.roomMembers r = some list ∧
        ∀ u, (u ∈ list' ↔ u ∈ ((s.serverAt me s.seen).apply me e).roomMembers r) ∨
          (u ∈ list' ↔ u ∈ list) ∧ (u ∈ (s.serverAt me s.seen).roomMembers r ↔
            u ∈ ((s.serverAt me s.seen).apply me e).roomMembers r))
    (hcount : ∀ r n, s.memberCount r = some n → P.removedRooms r = true ∨ s'.Counting r ∨
      ((s.serverAt me s.seen).apply me e).roomMembers r = (s.serverAt me s.seen).roomMembers r ∨
        n = (((s.serverAt me s.seen).apply me e).roomMembers r).card)
    (hmembers : ∀ w list', P.members w = some list' → ∃ list, s.members w = some list ∧
      ∀ u, (u ∈ list' ↔ u ∈ ((s.serverAt me s.seen).apply me e).members w) ∨
        (u ∈ list' ↔ u ∈ list) ∧ (u ∈ (s.serverAt me s.seen).members w ↔
          u ∈ ((s.serverAt me s.seen).apply me e).members w)) : s'.Fresh me := by
  have hlt : s.seen < s.log.length := (List.getElem?_eq_some_iff.mp he).1
  obtain ⟨-, hstale, -⟩ := hturn
  have hsame : P.base = s.base ∧ P.log = s.log ∧ P.seen = s.seen + 1 ∧ P.inflight = s.inflight :=
    ⟨hP.1, hP.2.1, hP.2.2.1, hP.2.2.2.1⟩
  refine h.next hlt hP hg (fun q hq k hk hle => ?_) (fun r list hl => ?_) (fun r n hn => ?_)
    fun w list hl => ?_
  · refine (hstale q hq k hk hle).imp_right fun hmem => ?_
    rw [hagain] at hmem
    cases hmem
  · rcases hlist r list hl with hin | ⟨before, hbefore, hpoint⟩
    · exact .inl hin
    · exact h.list_next he hsame hg hbefore hpoint
  · rw [hcounts] at hn
    rcases hcount r n hn with hr | hin | hor
    · exact .inl hr
    · exact .inr (.inl hin)
    · exact h.count_next he hsame hg (hremoved r) hn hor
  · obtain ⟨before, hbefore, hpoint⟩ := hmembers w list hl
    exact h.members_next he hsame hg hbefore hpoint

/-- **The user's own leaving**, which the handler leaves alone: the lists have it, or are to come. -/
theorem Fresh.ignored (he : s.log[s.seen]? = some e)
    (hturn : s.EventInTurn me isPublic e) (hagain : s.asksAgain e = [])
    (hown : x ∈ ownRoom me isPublic e) (hnot : RefetchKey.joined x ∉ s.asksAlone me e)
    (hroom : ∀ m : Memberships, ∀ r v, (r ≠ x ∨ v ≠ me) →
      (v ∈ m.roomMembers r ↔ v ∈ (m.apply me e).roomMembers r))
    (hws : ∀ m : Memberships, (m.apply me e).members = m.members) :
    ({ s with seen := s.seen + 1 } : RefetchState).Fresh me := by
  have hafter : s.serverAt me (s.seen + 1) = (s.serverAt me s.seen).apply me e := serverAt_succ he
  have hturn' := hturn.2.2 x hown
  rw [hafter] at hturn'
  refine h.patched he hturn (P := { s with seen := s.seen + 1 }) ⟨rfl, rfl, rfl, rfl, rfl, rfl, rfl⟩
    (Grown.refl _) hagain rfl (fun r => id) (fun r list hl => ?_) (fun r n hn => ?_)
    fun w list hl => ⟨list, hl, fun v => .inr ⟨.rfl, by rw [hws]⟩⟩
  · by_cases hr : r = x
    · rw [hr] at hl ⊢
      rcases hturn' with hsame | ⟨hin | hlist, -⟩
      · exact .inr ⟨list, hl, fun v => .inr ⟨.rfl, by rw [hsame]⟩⟩
      · exact .inl hin
      · refine .inr ⟨list, hl, fun v => ?_⟩
        by_cases hv : v = me
        · rw [hv]
          exact .inl (hlist list hl)
        · exact .inr ⟨.rfl, hroom _ x v (.inr hv)⟩
    · exact .inr ⟨list, hl, fun v => .inr ⟨.rfl, hroom _ r v (.inl hr)⟩⟩
  · by_cases hr : r = x
    · rw [hr] at hn ⊢
      rcases hturn' with hsame | ⟨-, hjoined | hin | hcard⟩
      · exact .inr (.inr (.inl hsame))
      · exact absurd hjoined hnot
      · exact .inr (.inl hin)
      · exact .inr (.inr (.inr (hcard n hn)))
    · refine .inr (.inr (.inl ?_))
      ext v
      exact (hroom _ r v (.inl hr)).symm

omit h

theorem notMem_update_erase :
    u ∉ update f x ((f x).erase u) x := by
  rw [update_self]
  exact Finset.notMem_erase u _

theorem mem_update_erase {r v : Ulid} (h : r ≠ x ∨ v ≠ u) :
    v ∈ f r ↔ v ∈ update f x ((f x).erase u) r := by
  by_cases hr : r = x
  · rw [hr, update_self, Finset.mem_erase, and_iff_right (h.resolve_left fun hne => hne hr)]
  · rw [update_of_ne hr]

section

variable (h : s.Fresh me)
include h

theorem Fresh.memberLeft (he : s.log[s.seen]? = some (.memberLeft x u))
    (hturn : s.EventInTurn me isPublic (.memberLeft x u)) :
    (applyEvent me isPublic { s with seen := s.seen + 1 } (.memberLeft x u)).Fresh me := by
  have hunchanged : ∀ m : Memberships, ∀ r v, (r ≠ x ∨ v ≠ u) → (v ∈ m.roomMembers r ↔
      v ∈ (m.apply me (.memberLeft x u)).roomMembers r) := fun m r v => mem_update_erase
  by_cases hme : u = me
  · -- it is left to `room.member_removed`
    have heq : applyEvent me isPublic { s with seen := s.seen + 1 } (.memberLeft x u) =
        { s with seen := s.seen + 1 } := if_pos hme
    rw [heq]
    refine h.ignored he hturn rfl (x := x) ?_ ?_ (fun m r v hor => ?_) fun m => rfl
    · show x ∈ if u = me then some x else none
      rw [if_pos hme]
      rfl
    · show RefetchKey.joined x ∉ if _ then _ else _
      rw [if_neg fun hand => hand.1 hme]
      exact not_mem_nil
    · rw [← hme] at hor
      exact hunchanged m r v hor
  · set left := (s.roomMembers x).map fun list => list.erase u
    set P : RefetchState := { s with
      seen := s.seen + 1, roomMembers := update s.roomMembers x left }
    have heq : applyEvent me isPublic { s with seen := s.seen + 1 } (.memberLeft x u) = P.askCount x :=
      if_neg hme
    rw [heq]
    have hfree : (P.memberCount x).isSome → ¬ P.InFlight (.roomInfo x) := by
      intro hsome
      refine hturn.1 _ ?_
      show _ ∈ if _ then _ else _
      rw [if_pos ⟨hme, hsome⟩]
      exact .head _
    obtain ⟨hg, hcounting⟩ := grown_askCount hfree
    refine h.patched he hturn (P := P) ⟨rfl, rfl, rfl, rfl, rfl, rfl, rfl⟩
      hg rfl rfl (fun r => id) (fun r list hl => ?_) (fun r n hn => ?_)
      fun w list hl => ⟨list, hl, fun v => .inr ⟨.rfl, .rfl⟩⟩
    · replace hl : update s.roomMembers x left r = some list := hl
      by_cases hr : r = x
      · rw [hr, update_self] at hl
        obtain ⟨before, hbefore, rfl⟩ := map_eq_some_iff.mp hl
        refine .inr ⟨before, hr ▸ hbefore, fun v => ?_⟩
        by_cases hv : v = u
        · rw [hv, hr]
          exact .inl (iff_of_false (Finset.notMem_erase u _) notMem_update_erase)
        · exact .inr ⟨Finset.mem_erase.trans (and_iff_right hv), hunchanged _ r v (.inr hv)⟩
      · rw [update_of_ne hr] at hl
        exact .inr ⟨list, hl, fun v => .inr ⟨.rfl, hunchanged _ r v (.inl hr)⟩⟩
    · by_cases hr : r = x
      · rw [hr] at hn ⊢
        exact .inr (.inl (hcounting n hn))
      · exact .inr (.inr (.inl (update_of_ne hr _ _)))

/-- What is taken away is not shown. -/
theorem Fresh.removed (he : s.log[s.seen]? = some e)
    (hturn : s.EventInTurn me isPublic e) (hagain : s.asksAgain e = [])
    (hroom : ∀ m : Memberships, ∀ r, r ≠ x → (m.apply me e).roomMembers r = m.roomMembers r)
    (hws : ∀ m : Memberships, (m.apply me e).members = m.members) :
    (remove { s with seen := s.seen + 1 } x).Fresh me := by
  refine h.patched he hturn (P := remove { s with seen := s.seen + 1 } x)
    ⟨rfl, rfl, rfl, rfl, rfl, rfl, rfl⟩ (Grown.refl _) hagain rfl (fun r hr => ?_)
    (fun r list hl => ?_) (fun r n hn => ?_)
    fun w list hl => ⟨list, hl, fun v => .inr ⟨.rfl, by rw [hws]⟩⟩
  · show update s.removedRooms x true r = true
    by_cases hrx : r = x
    · rw [hrx, update_self]
    · rw [update_of_ne hrx]
      exact hr
  · replace hl : update s.roomMembers x none r = some list := hl
    by_cases hr : r = x
    · rw [hr, update_self] at hl
      cases hl
    · rw [update_of_ne hr] at hl
      exact .inr ⟨list, hl, fun v => .inr ⟨.rfl, by rw [hroom _ r hr]⟩⟩
  · by_cases hr : r = x
    · refine .inl ?_
      show update s.removedRooms x true r = true
      rw [hr, update_self]
    · exact .inr (.inr (.inl (hroom _ r hr)))

theorem Fresh.unchanged (he : s.log[s.seen]? = some e)
    (hturn : s.EventInTurn me isPublic e) (hagain : s.asksAgain e = [])
    (hsame : ∀ m : Memberships, m.apply me e = m) (hg : Grown { s with seen := s.seen + 1 } s') :
    s'.Fresh me := by
  refine h.patched he hturn (P := { s with seen := s.seen + 1 })
    ⟨rfl, rfl, rfl, rfl, rfl, rfl, rfl⟩ hg hagain rfl (fun r => id)
    (fun r list hl => .inr ⟨list, hl, fun v => .inr ⟨.rfl, by rw [hsame]⟩⟩)
    (fun r n hn => .inr (.inr (.inl (by rw [hsame]))))
    fun w list hl => ⟨list, hl, fun v => .inr ⟨.rfl, by rw [hsame]⟩⟩

theorem Fresh.roomMemberRemoved
    (he : s.log[s.seen]? = some (.roomMemberRemoved x))
    (hturn : s.EventInTurn me isPublic (.roomMemberRemoved x)) :
    (applyEvent me isPublic { s with seen := s.seen + 1 } (.roomMemberRemoved x)).Fresh me := by
  cases hpublic : isPublic x with
  | false =>
    have heq : applyEvent me isPublic { s with seen := s.seen + 1 } (.roomMemberRemoved x) =
        remove { s with seen := s.seen + 1 } x :=
      if_neg (Bool.eq_false_iff.mp hpublic)
    rw [heq]
    exact h.removed he hturn rfl (fun m r hr => update_of_ne hr _ _) fun m => rfl
  | true =>
    have heq : applyEvent me isPublic { s with seen := s.seen + 1 } (.roomMemberRemoved x) =
        { s with seen := s.seen + 1 } := if_pos hpublic
    rw [heq]
    refine h.ignored he hturn rfl (x := x) ?_ not_mem_nil (fun m r v => mem_update_erase)
      fun m => rfl
    show x ∈ if isPublic x then some x else none
    rw [if_pos hpublic]
    rfl

theorem Fresh.workspaceMemberRemoved
    (he : s.log[s.seen]? = some (.workspaceMemberRemoved w u))
    (hturn : s.EventInTurn me isPublic (.workspaceMemberRemoved w u)) :
    (applyEvent me isPublic { s with seen := s.seen + 1 } (.workspaceMemberRemoved w u)).Fresh me := by
  set left := (s.members w).map fun list => list.erase u
  refine h.patched he hturn (P := { s with
      seen := s.seen + 1, members := update s.members w left })
    ⟨rfl, rfl, rfl, rfl, rfl, rfl, rfl⟩ (Grown.refl _) rfl rfl (fun r => id)
    (fun r list hl => .inr ⟨list, hl, fun v => .inr ⟨.rfl, .rfl⟩⟩)
    (fun r n hn => .inr (.inr (.inl rfl))) fun w' list hl => ?_
  replace hl : update s.members w left w' = some list := hl
  by_cases hw : w' = w
  · rw [hw, update_self] at hl
    obtain ⟨before, hbefore, rfl⟩ := map_eq_some_iff.mp hl
    refine ⟨before, hw ▸ hbefore, fun v => ?_⟩
    by_cases hv : v = u
    · rw [hv, hw]
      exact .inl (iff_of_false (Finset.notMem_erase u _) notMem_update_erase)
    · exact .inr ⟨Finset.mem_erase.trans (and_iff_right hv), mem_update_erase (.inr hv)⟩
  · rw [update_of_ne hw] at hl
    exact ⟨list, hl, fun v => .inr ⟨.rfl, mem_update_erase (.inl hw)⟩⟩

/-- **An event in turn** keeps what is fresh. -/
theorem Fresh.deliver (he : s.log[s.seen]? = some e)
    (hturn : s.EventInTurn me isPublic e) :
    (applyEvent me isPublic { s with seen := s.seen + 1 } e).Fresh me := by
  cases e with
  | memberJoined => exact h.memberJoined he hturn
  | memberLeft => exact h.memberLeft he hturn
  | roomUpdated => exact h.unchanged he hturn rfl (fun _ => rfl) (Grown.refl _)
  | roomDeleted => exact h.removed he hturn rfl (fun m r hr => update_of_ne hr _ _) fun _ => rfl
  | roomMemberRemoved => exact h.roomMemberRemoved he hturn
  | workspaceMemberRemoved => exact h.workspaceMemberRemoved he hturn
  | messageDeleted _ last =>
    refine h.unchanged he hturn rfl (fun _ => rfl) ?_
    cases last with
    | false => exact Grown.refl _
    | true => exact (grown_ask (s := { s with seen := s.seen + 1 }) (hturn.1 _ (.head _))).1

/-! ### The other steps -/

/-- The server does something. -/
theorem Fresh.happen (e : MemberEvent) :
    ({ s with log := s.log ++ [e] } : RefetchState).Fresh me := by
  have hlen : s.log.length ≤ (s.log ++ [e]).length := by
    rw [length_append]
    exact Nat.le_add_right _ _
  have hat : ∀ j ≤ s.log.length, serverAt me { s with log := s.log ++ [e] } j = s.serverAt me j := by
    intro j hj
    show ((s.log ++ [e]).take j).foldl _ _ = (s.log.take j).foldl _ _
    rw [take_append_of_le_length hj]
  refine ⟨h.seenLe.trans hlen, fun q hq k hk => (h.readLe q hq k hk).trans hlen,
    fun q hq k hk => ?_, h.alone, h.waiting, fun r list hl => ?_, fun r n hn => ?_,
    fun w list hl => ?_, h.asked⟩
  · refine (h.read q hq k hk).imp_right fun hsome => hsome.grow hlen fun j hj heq => ?_
    rw [hat j hj, hat k (h.readLe q hq k hk)]
    exact heq
  · refine (h.list r list hl).imp_right fun hf u => (hf u).grow hlen fun j hj heq => ?_
    show u ∈ list ↔ u ∈ (serverAt me { s with log := s.log ++ [e] } j).roomMembers r
    rw [hat j hj]
    exact heq
  · refine (h.count r n hn).imp_right (Or.imp_right fun hf => AtSome.grow hf hlen fun j hj heq => ?_)
    rw [hat j hj]
    exact heq
  · refine (h.members w list hl).imp_right fun hf u => (hf u).grow hlen fun j hj heq => ?_
    show u ∈ list ↔ u ∈ (serverAt me { s with log := s.log ++ [e] } j).members w
    rw [hat j hj]
    exact heq

/-- A request is answered. -/
theorem Fresh.answer (i : ℕ) :
    ({ s with inflight := Request.answer i s.log.length s.inflight } : RefetchState).Fresh me := by
  have hin : ∀ key, s.InFlight key →
      ({ s with inflight := Request.answer i s.log.length s.inflight } : RefetchState).InFlight key := by
    rintro key ⟨q, hq, rfl⟩
    obtain ⟨q', hq', hkey, -⟩ := exists_answer i s.log.length hq
    exact ⟨q', hq', hkey⟩
  refine ⟨h.seenLe, fun q hq k hk => ?_, fun q hq k hk => ?_, ?_,
    fun key hkey => (h.waiting key hkey).imp_right (hin key),
    fun r list hl => (h.list r list hl).imp_left (hin _),
    fun r n hn => (h.count r n hn).imp_right (Or.imp_left ?_),
    fun w list hl => (h.members w list hl).imp_left (hin _),
    fun x hx => (h.asked x hx).imp_right (Or.imp_right (Or.imp_left ?_))⟩
  · obtain ⟨q', hq', -, -, hread⟩ := mem_answer hq
    rcases hread with hsame | ⟨-, hnow⟩
    · exact h.readLe q' hq' k (hsame ▸ hk)
    · rw [hnow] at hk
      exact (some.inj hk).ge
  · obtain ⟨q', hq', hkey, -, hread⟩ := mem_answer hq
    rcases hread with hsame | ⟨-, hnow⟩
    · rw [← hkey]
      exact h.read q' hq' k (hsame ▸ hk)
    · rw [hnow] at hk
      cases hk
      exact .inr (AtSome.of_last h.seenLe rfl)
  · show ((Request.answer i _ s.inflight).map Request.key).Pairwise _
    rw [map_key_answer]
    exact h.alone
  · rintro ⟨q, hq, heq⟩
    obtain ⟨q', hq', hkey, -⟩ := exists_answer i s.log.length hq
    exact ⟨q', hq', hkey ▸ heq⟩
  · rintro ⟨q, hq, heq, hle⟩
    obtain ⟨q', hq', hkey, hstarted⟩ := exists_answer i s.log.length hq
    exact ⟨q', hq', hkey.trans heq, hstarted ▸ hle⟩

/-- Whose key waits is the only one. -/
theorem Fresh.key_ne {x : Request RefetchKey}
    (hx : s.inflight[i]? = some x) (hwaits : x.key.waits = true) (hq : q ∈ s.inflight.eraseIdx i) :
    q.key ≠ x.key := by
  obtain ⟨j, hji, hj⟩ := mem_eraseIdx_iff_getElem?.mp hq
  have hlen : ∀ {n : ℕ} {y}, s.inflight[n]? = some y → n < (s.inflight.map Request.key).length ∧
      (s.inflight.map Request.key)[n]? = some y.key := by
    intro n y hy
    rw [length_map, getElem?_map, hy]
    exact ⟨(List.getElem?_eq_some_iff.mp hy).1, rfl⟩
  obtain ⟨hi', hix⟩ := hlen hx
  obtain ⟨hj', hjq⟩ := hlen hj
  have hall := pairwise_iff_getElem.mp h.alone
  intro heq
  rcases Nat.lt_or_gt_of_ne hji with hlt | hgt
  · have hne := hall j i hj' hi' hlt
    rw [(List.getElem?_eq_some_iff.mp hix).2, (List.getElem?_eq_some_iff.mp hjq).2, heq] at hne
    exact hne hwaits rfl
  · have hne := hall i j hi' hj' hgt
    rw [(List.getElem?_eq_some_iff.mp hix).2, (List.getElem?_eq_some_iff.mp hjq).2, heq] at hne
    exact hne hwaits rfl

end

/-- What an answer does to what is shown. -/
theorem apply_eq (s : RefetchState) (key : RefetchKey) (m : Memberships) :
    ∃ lists counts members removed, s.apply key m = { s with
      roomMembers := lists, memberCount := counts, members := members, removedRooms := removed } ∧
    (∀ r list, lists r = some list → s.roomMembers r = some list ∧ key ≠ .members r ∨
      key = .members r ∧ list = key.brings m) ∧
    (∀ r n, counts r = some n → s.memberCount r = some n ∧ removed r = s.removedRooms r ∧
      key.counts ≠ some r ∨ key.counts = some r ∧ n = (key.brings m).card) ∧
    ∀ w list, members w = some list → s.members w = some list ∧ key ≠ .wsmembers w ∨
      key = .wsmembers w ∧ list = key.brings m := by
  have hcounts : ∀ x : Ulid, ∀ r n,
      update s.memberCount x (some (m.roomMembers x).card) r = some n →
        s.memberCount r = some n ∧ some x ≠ some r ∨ some x = some r ∧ n = (m.roomMembers x).card := by
    intro x r n hn
    by_cases hr : r = x
    · rw [hr, update_self] at hn
      exact .inr ⟨congrArg some hr.symm, (some.inj hn).symm⟩
    · rw [update_of_ne hr] at hn
      exact .inl ⟨hn, fun h => hr (some.inj h).symm⟩
  cases key with
  | members x =>
    refine ⟨_, _, _, _, rfl, fun r list hl => ?_, fun r n hn => .inl ⟨hn, rfl, nofun⟩,
      fun w list hl => .inl ⟨hl, nofun⟩⟩
    by_cases hr : r = x
    · rw [hr, update_self] at hl
      exact .inr ⟨congrArg RefetchKey.members hr.symm, (some.inj hl).symm⟩
    · rw [update_of_ne hr] at hl
      exact .inl ⟨hl, fun h => hr (RefetchKey.members.inj h).symm⟩
  | wsmembers x =>
    refine ⟨_, _, _, _, rfl, fun r list hl => .inl ⟨hl, nofun⟩,
      fun r n hn => .inl ⟨hn, rfl, nofun⟩, fun w list hl => ?_⟩
    by_cases hw : w = x
    · rw [hw, update_self] at hl
      exact .inr ⟨congrArg RefetchKey.wsmembers hw.symm, (some.inj hl).symm⟩
    · rw [update_of_ne hw] at hl
      exact .inl ⟨hl, fun h => hw (RefetchKey.wsmembers.inj h).symm⟩
  | rooms =>
    exact ⟨_, _, _, _, rfl, fun r list hl => .inl ⟨hl, nofun⟩,
      fun r n hn => .inl ⟨hn, rfl, nofun⟩,
      fun w list hl => .inl ⟨hl, nofun⟩⟩
  | roomInfo x =>
    exact ⟨_, _, _, _, rfl, fun r list hl => .inl ⟨hl, nofun⟩,
      fun r n hn => (hcounts x r n hn).imp_left fun h => ⟨h.1, rfl, h.2⟩,
      fun w list hl => .inl ⟨hl, nofun⟩⟩
  | room x =>
    exact ⟨_, _, _, _, rfl, fun r list hl => .inl ⟨hl, nofun⟩,
      fun r n hn => (hcounts x r n hn).imp_left fun h => ⟨h.1, rfl, h.2⟩,
      fun w list hl => .inl ⟨hl, nofun⟩⟩
  | change x =>
    exact ⟨_, _, _, _, rfl, fun r list hl => .inl ⟨hl, nofun⟩,
      fun r n hn => (hcounts x r n hn).imp_left fun h => ⟨h.1, rfl, h.2⟩,
      fun w list hl => .inl ⟨hl, nofun⟩⟩
  | joined x =>
    refine ⟨_, _, _, _, rfl, fun r list hl => .inl ⟨hl, nofun⟩,
      fun r n hn => (hcounts x r n hn).imp_left fun h => ⟨h.1, ?_, h.2⟩,
      fun w list hl => .inl ⟨hl, nofun⟩⟩
    exact update_of_ne (fun hr => h.2 (congrArg some hr.symm)) _ _

/-- Who has waited asks; else nothing happens. -/
theorem grown_proceed (s : RefetchState) (key : RefetchKey) :
    Grown { s with waiting := s.waiting.filter (· ≠ key) } (s.proceed key) ∧
      (key ∈ s.waiting → (s.proceed key).InFlight key ∧
        (¬ s.InFlight key → ⟨key, s.seen, none⟩ ∈ (s.proceed key).inflight)) := by
  set t : RefetchState := { s with waiting := s.waiting.filter (· ≠ key) }
  by_cases hwait : key ∈ s.waiting
  · have heq : s.proceed key = t.start key := by
      rw [proceed, if_pos hwait]
      cases key <;> rfl
    rw [heq]
    exact ⟨grown_start t key, fun _ => ⟨t.start_inFlight key, fun hnone => start_new hnone⟩⟩
  · have heq : s.proceed key = t := by
      rw [proceed, if_neg hwait]
      have hfilter : s.waiting.filter (· ≠ key) = s.waiting := by
        refine filter_eq_self.mpr fun x hx => decide_eq_true fun hkey => hwait ?_
        rw [← hkey]
        exact hx
      show s = { s with waiting := s.waiting.filter (· ≠ key) }
      rw [hfilter]
    rw [heq]
    exact ⟨Grown.refl t, fun h => absurd h hwait⟩

include h

/-- **An answer is applied.** -/
theorem Fresh.settle {k : ℕ}
    (hq : s.inflight[i]? = some q) (hk : q.read = some k)
    (hs' : (apply { s with
      inflight := s.inflight.eraseIdx i
      applied := (q.key, q.started) :: s.applied } q.key (s.serverAt me k)).proceed q.key = s') :
    s'.Fresh me := by
  obtain ⟨lists, counts, members, removed, heq, hlists, hcounts, hmembers⟩ := apply_eq { s with
      inflight := s.inflight.eraseIdx i
      applied := (q.key, q.started) :: s.applied } q.key (s.serverAt me k)
  rw [heq] at hs'
  obtain ⟨hg, hasks⟩ := grown_proceed { s with
      inflight := s.inflight.eraseIdx i
      applied := (q.key, q.started) :: s.applied
      roomMembers := lists, memberCount := counts, members := members, removedRooms := removed } q.key
  rw [hs'] at hg hasks
  have hmem : q ∈ s.inflight := mem_of_getElem? hq
  -- what else is in flight still is
  have hrest : ∀ x ∈ s.inflight, x ≠ q → x ∈ s'.inflight := fun x hx hne =>
    hg.inflight ((mem_eraseIdx_or_eq hx hq).resolve_right hne)
  have hin : ∀ key, s.InFlight key → key ≠ q.key → s'.InFlight key := by
    rintro key ⟨x, hx, rfl⟩ hne
    exact ⟨x, hrest x hx fun hxq => hne (congrArg Request.key hxq), rfl⟩
  -- the answer is fresh, or asked for again
  have hfresh : s'.InFlight q.key ∨ AtSome (fun j => q.key.brings (s.serverAt me j) =
      q.key.brings (s.serverAt me k)) s.seen s.log.length :=
    (h.read q hmem k hk).imp_left fun hwait => (hasks hwait).1
  refine fresh_of_grown hg h.seenLe
    (fun x hx k' hk' => h.readLe x (mem_of_mem_eraseIdx hx) k' hk')
    (fun x hx k' hk' => ?_) ?_ (fun key hkey => ?_) (fun r list hl => ?_) (fun r n hn => ?_)
    (fun w list hl => ?_) fun x hx => ?_
  · refine (h.read x (mem_of_mem_eraseIdx hx) k' hk').imp_left fun hwait => hg.waiting ?_
    refine mem_filter.mpr ⟨hwait, decide_eq_true fun hkey => ?_⟩
    have hwaits := (h.waiting _ hwait).1
    exact h.key_ne hq (hkey ▸ hwaits) hx hkey
  · exact h.alone.sublist ((eraseIdx_sublist _ _).map _)
  · obtain ⟨hwait, hne⟩ := mem_filter.mp hkey
    obtain ⟨hwaits, hflight⟩ := h.waiting key hwait
    exact ⟨hwaits, hin key hflight (of_decide_eq_true hne)⟩
  · rcases hlists r list hl with ⟨hold, hne⟩ | ⟨hkey, rfl⟩
    · exact (h.list r list hold).imp_left fun hflight => hin _ hflight hne.symm
    · refine hfresh.imp (fun hflight => hkey ▸ hflight) fun hsome => SetAtSome.of_atSome ?_
      rw [hkey] at hsome ⊢
      exact hsome
  · rcases hcounts r n hn with ⟨hold, hremoved, hne⟩ | ⟨hkey, rfl⟩
    · refine (h.count r n hold).imp (fun hr => hremoved.trans hr) (Or.imp_left ?_)
      rintro ⟨x, hx, hxr⟩
      exact ⟨x, hrest x hx fun hxq => hne (hxq ▸ hxr), hxr⟩
    · right
      refine hfresh.imp (fun ⟨x, hx, hxq⟩ => ⟨x, hx, hxq ▸ hkey⟩) fun hsome =>
        hsome.imp fun j _ _ hbrings => ?_
      have hbrings' : ∀ m : Memberships, q.key.brings m = m.roomMembers r := by
        intro m
        cases hkind : q.key with
        | members | wsmembers | rooms => rw [hkind] at hkey; cases hkey
        | _ => rw [hkind] at hkey; exact congrArg m.roomMembers (some.inj hkey)
      rw [← hbrings, hbrings']
      rfl
  · rcases hmembers w list hl with ⟨hold, hne⟩ | ⟨hkey, rfl⟩
    · exact (h.members w list hold).imp_left fun hflight => hin _ hflight hne.symm
    · refine hfresh.imp (fun hflight => hkey ▸ hflight) fun hsome => SetAtSome.of_atSome ?_
      rw [hkey] at hsome ⊢
      exact hsome
  · obtain ⟨hle, hserved⟩ := h.asked x hx
    refine ⟨hle, ?_⟩
    by_cases hxq : x.1 = q.key
    · rcases hserved with hwait | ⟨y, hy, hyx, hyle⟩ | ⟨y, hy, hyx⟩
      · -- the request is sent anew
        rw [hxq] at hwait
        have hwaits := (h.waiting _ hwait).1
        have hnew := (hasks hwait).2 fun ⟨z, hz, hzq⟩ => h.key_ne hq hwaits hz hzq
        exact .inr (.inl ⟨_, hnew, hxq.symm, hle⟩)
      · by_cases hyq : y = q
        · refine .inr (.inr ⟨(q.key, q.started), ?_, hxq.symm, hyq ▸ hyle⟩)
          rw [hg.applied]
          exact .head _
        · exact .inr (.inl ⟨y, hrest y hy hyq, hyx, hyle⟩)
      · refine .inr (.inr ⟨y, ?_, hyx⟩)
        rw [hg.applied]
        exact .tail _ hy
    · rcases hserved with hwait | ⟨y, hy, hyx, hyle⟩ | ⟨y, hy, hyx⟩
      · exact .inl (hg.waiting (mem_filter.mpr ⟨hwait, decide_eq_true hxq⟩))
      · exact .inr (.inl ⟨y, hrest y hy fun hyq => hxq (hyq ▸ hyx.symm), hyx, hyle⟩)
      · refine .inr (.inr ⟨y, ?_, hyx⟩)
        rw [hg.applied]
        exact .tail _ hy

/-- **One step keeps what is fresh.** -/
theorem Fresh.act (hturn : s.InTurn me isPublic a)
    (hact : act me isPublic s a = some s') : s'.Fresh me := by
  cases a with
  | happen e => exact some.inj hact ▸ h.happen e
  | deliver =>
    obtain ⟨e, he, rfl⟩ := map_eq_some_iff.mp hact
    exact h.deliver he (hturn e he)
  | load key => exact some.inj hact ▸ h.grow (grown_start s key)
  | reload =>
    obtain ⟨hwaits, heq⟩ := ite_none_right_eq_some.mp hact
    exact some.inj heq ▸ h.grow (grown_reload hwaits s).1
  | answer i => exact some.inj hact ▸ h.answer i
  | settle =>
    obtain ⟨q, hq, hrest⟩ := bind_eq_some_iff.mp hact
    obtain ⟨k, hk, heq⟩ := map_eq_some_iff.mp hrest
    exact h.settle hq hk heq

omit h

/-- **What an event asks for is fresh.** When nothing is in flight, each refetch that a handler asked for
was answered by a request sent after the event; and when every event has come, the lists and the numbers
of members are those of the server. -/
theorem refetches_are_fresh
    (hs : (system me isPublic).ReachableBy (fun s a => s.InTurn me isPublic a) s)
    (hidle : s.inflight = []) :
    (∀ x ∈ s.asked, ∃ y ∈ s.applied, y.1 = x.1 ∧ x.2 ≤ y.2) ∧
    (s.seen = s.log.length →
      (∀ r list, s.roomMembers r = some list → list = (s.serverAt me s.seen).roomMembers r) ∧
      (∀ r n, s.memberCount r = some n → s.removedRooms r = false →
        n = ((s.serverAt me s.seen).roomMembers r).card) ∧
      ∀ w list, s.members w = some list → list = (s.serverAt me s.seen).members w) := by
  have h : s.Fresh me := hs.invariant (I := Fresh me) (fun _ => fresh_of_init)
    fun _ _ _ h hturn hact => h.act hturn hact
  have hnone : ∀ q, q ∉ s.inflight := by
    rw [hidle]
    exact fun q => not_mem_nil
  refine ⟨fun x hx => ?_, fun hseen => ⟨fun r list hl => ?_, fun r n hn hr => ?_, fun w list hl => ?_⟩⟩
  · rcases (h.asked x hx).2 with hwait | ⟨q, hq, -⟩ | hserved
    · obtain ⟨-, q, hq, -⟩ := h.waiting _ hwait
      exact absurd hq (hnone q)
    · exact absurd hq (hnone q)
    · exact hserved
  · rcases h.list r list hl with ⟨q, hq, -⟩ | hfresh
    · exact absurd hq (hnone q)
    · unfold RoomFresh at hfresh
      rw [← hseen] at hfresh
      exact hfresh.eq
  · rcases h.count r n hn with hremoved | ⟨q, hq, -⟩ | hfresh
    · rw [hr] at hremoved
      exact Bool.noConfusion hremoved
    · exact absurd hq (hnone q)
    · unfold CountFresh at hfresh
      rw [← hseen] at hfresh
      exact hfresh.eq
  · rcases h.members w list hl with ⟨q, hq, -⟩ | hfresh
    · exact absurd hq (hnone q)
    · unfold MembersFresh at hfresh
      rw [← hseen] at hfresh
      exact hfresh.eq

/-! ## Two who join -/

/-- A store that has nothing; user 1 is in room 5 of workspace 9. -/
def empty : RefetchState where
  base := ⟨fun _ => {1}, fun _ => {1}⟩
  log := []
  seen := 0
  inflight := []
  waiting := []
  roomMembers := fun _ => none
  memberCount := fun _ => none
  members := fun _ => none
  removedRooms := fun _ => false
  asked := []
  applied := []

theorem empty_init : (system 1 fun _ => true).init empty :=
  ⟨rfl, rfl, rfl, rfl, rfl, rfl, rfl, rfl, rfl, rfl⟩

/-- The members of the room are loaded, and somebody joins. -/
def joins : List RefetchAction :=
  [.load (.members 5), .answer 0, .settle 0, .happen (.memberJoined 9 5 2), .deliver]

/-- The next one joins after the list was refetched. -/
theorem refetches_are_fresh_joins : ∃ s,
    (system 1 fun _ => true).ReachableBy (fun s a => s.InTurn 1 (fun _ => true) a) s ∧
      s.asked = [(.members 5, 2), (.members 5, 1)] ∧
      ∀ x ∈ s.asked, ∃ y ∈ s.applied, y.1 = x.1 ∧ x.2 ≤ y.2 := by
  have hrun : ((system 1 fun _ => true).runBy (fun s a => s.InTurn 1 (fun _ => true) a) empty
      (joins ++ [.answer 0, .settle 0, .happen (.memberJoined 9 5 3), .deliver, .answer 0,
        .settle 0])).any (fun s => decide (s.inflight = [] ∧
          s.asked = [(.members 5, 2), (.members 5, 1)])) = true := by decide +kernel
  obtain ⟨s, hreach, htest⟩ := TransitionSystem.exists_of_runBy hrun empty_init
  obtain ⟨hidle, hasked⟩ := of_decide_eq_true htest
  exact ⟨s, hreach, hasked, (refetches_are_fresh hreach hidle).1⟩

/-- **The second to join is missing**: the list was read before, and the request was still in flight. -/
theorem joins_missed : ∃ s, (system 1 fun _ => true).Reachable s ∧ s.inflight = [] ∧
    s.seen = s.log.length ∧ (∃ x ∈ s.asked, ∀ y ∈ s.applied, y.1 = x.1 → y.2 < x.2) ∧
    s.roomMembers 5 = some {1, 2} ∧ (s.serverAt 1 s.seen).roomMembers 5 = {1, 2, 3} := by
  have hrun : ((system 1 fun _ => true).run empty
      (joins ++ [.answer 0, .happen (.memberJoined 9 5 3), .deliver, .settle 0])).any (fun s =>
        decide (s.inflight = [] ∧ s.seen = s.log.length ∧
          (∃ x ∈ s.asked, ∀ y ∈ s.applied, y.1 = x.1 → y.2 < x.2) ∧
          s.roomMembers 5 = some {1, 2} ∧ (s.serverAt 1 s.seen).roomMembers 5 = {1, 2, 3})) = true := by
    decide +kernel
  obtain ⟨s, hreach, htest⟩ := TransitionSystem.exists_of_run hrun empty_init
  exact ⟨s, hreach, of_decide_eq_true htest⟩

end RefetchState

end Hibari
