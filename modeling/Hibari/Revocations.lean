import Hibari.TokenFamilies

/-!
# Revoking a session

A session is revoked by one `UPDATE` over the tokens of its family. It finds the token that
is good when it begins, and that token may be exchanged before the `UPDATE` gets to it: then
the row is skipped, for it is revoked already, and the next token of the family was not
there when the `UPDATE` began.

As long as no token is exchanged between the two, the `UPDATE` covers all good tokens of the
families that it found, and they end with it for good (`revoked_for_good`). Otherwise the
session goes on: a token that was stolen and used again does not end a session that its
owner refreshes at that moment (`successor_stays`).
-/

namespace Hibari

open List TransitionSystem

/-- The families that an `UPDATE` found are among those that it is about. -/
def Revocation.Aims (r : Revocation) (l : List RefreshToken) (families : List Ulid) : Prop :=
  ∀ f ∈ families, ∃ t ∈ l, t.familyId = f ∧ r.covers t = true

/-- The good tokens of some families. -/
def good (families : List Ulid) (t : RefreshToken) : Bool :=
  decide (t.familyId ∈ families) && t.revoked.isNone

/-- A token that an `UPDATE` has still to take was exchanged since it began. -/
def Overtaken (l : List RefreshToken) (todo : List Ulid) : Prop :=
  ∃ t ∈ l, t.id ∈ todo ∧ t.revoked = some .rotated

/-- A family has ended. -/
def FamilyEnded (l : List RefreshToken) (familyId : Ulid) : Prop :=
  (∃ t ∈ l, t.familyId = familyId) ∧ ∀ t ∈ l, t.familyId = familyId → t.revoked ≠ none

/-- **How far a revocation has come**: it covers the families that it found, unless it was
overtaken; those that it has committed have ended. -/
def AuthTask.Covered (l : List RefreshToken) : AuthTask → Prop
  | revoking r families todo got => r.Aims l families ∧
      (SnapshotUpdate.Covers RefreshToken.id (good families) l todo got ∨ Overtaken l todo)
  | done (.revoked _ families _) => ∀ f ∈ families, FamilyEnded l f
  | _ => True

/-- A revocation that takes a row does not find it exchanged. -/
def AuthTask.Unrotated (l : List RefreshToken) : AuthTask → Prop
  | revoking _ _ (k :: _) _ => ∀ t ∈ l, t.id = k → t.revoked ≠ some .rotated
  | _ => True

instance (l : List RefreshToken) (t : AuthTask) : Decidable (t.Unrotated l) := by
  unfold AuthTask.Unrotated
  split <;> infer_instance

section Tables

variable {l l' : List RefreshToken} {r : Revocation} {families todo got : List Ulid}
  {t rt : RefreshToken}

theorem good_iff : good families t = true ↔ t.familyId ∈ families ∧ t.revoked = none := by
  unfold good
  rw [Bool.and_eq_true, decide_eq_true_iff, Option.isNone_iff_eq_none]

theorem covers_congr (hfamily : t.familyId = rt.familyId) (huser : t.userId = rt.userId) :
    r.covers t = r.covers rt := by
  cases r <;> simp only [Revocation.covers, hfamily, huser]

theorem Revocation.Aims.covers (h : r.Aims l families) (hf : Families l) (ht : t ∈ l)
    (hmem : t.familyId ∈ families) : r.covers t = true := by
  obtain ⟨x, hx, hfamily, hcovers⟩ := h _ hmem
  rw [covers_congr hfamily.symm (hf.user t ht x hx hfamily.symm).1]
  exact hcovers

theorem Revocation.Aims.move (h : r.Aims l families) (hmove : TokenMove l l')
    (hids : (l.map RefreshToken.id).Nodup) : r.Aims l' families := by
  intro f hf
  obtain ⟨t, ht, rfl, hcovers⟩ := h f hf
  obtain ⟨t', ht', hsame, -⟩ := hmove.stays hids ht
  refine ⟨t', ht', hsame.familyId, ?_⟩
  rw [covers_congr hsame.familyId hsame.userId]
  exact hcovers

theorem FamilyEnded.move {familyId : Ulid} (h : FamilyEnded l familyId) (hmove : TokenMove l l')
    (hids : (l.map RefreshToken.id).Nodup) : FamilyEnded l' familyId := by
  refine ⟨?_, hmove.ended h.1 h.2⟩
  obtain ⟨t, ht, hfamily⟩ := h.1
  obtain ⟨t', ht', hsame, -⟩ := hmove.stays hids ht
  exact ⟨t', ht', hsame.familyId.trans hfamily⟩

theorem Overtaken.move (h : Overtaken l todo) (hmove : TokenMove l l')
    (hids : (l.map RefreshToken.id).Nodup) : Overtaken l' todo := by
  obtain ⟨t, ht, hmem, hrotated⟩ := h
  obtain ⟨t', ht', -, hsame⟩ := hmove.stays hids ht
  rw [hsame (by rw [hrotated]; simp)] at ht'
  exact ⟨t, ht', hmem, hrotated⟩

/-- **Others go on while a revocation takes its rows**: what it covers is covered still, or a
token that it has not got yet was exchanged. -/
theorem covers_move (hmove : TokenMove l l')
    (hids' : (l'.map RefreshToken.id).Nodup) (haims : r.Aims l families)
    (hgot : ∀ t ∈ l, t.id ∈ got → t ∈ l')
    (h : SnapshotUpdate.Covers RefreshToken.id (good families) l todo got) :
    SnapshotUpdate.Covers RefreshToken.id (good families) l' todo got ∨ Overtaken l' todo := by
  by_cases hover : Overtaken l' todo
  · exact .inr hover
  · refine .inl fun t ht hgood => ?_
    obtain ⟨hfamily, hlive⟩ := good_iff.mp hgood
    rcases hmove.comes ht hlive with hold | hnew | ⟨rt, hrt, hrtlive, hsame, -, -, hrotated⟩
    · exact h t hold hgood
    · obtain ⟨x, hx, hxfamily, -⟩ := haims _ hfamily
      exact absurd hxfamily (hnew x hx)
    · -- the token that was exchanged is one that is still to be taken
      rw [hsame] at hfamily
      rcases h rt hrt (good_iff.mpr ⟨hfamily, hrtlive⟩) with hmem | hmem
      · have heq := inj_on_of_nodup_map hids' (hgot rt hrt hmem) hrotated rfl
        have hrevoked := congrArg RefreshToken.revoked heq
        rw [hrtlive] at hrevoked
        cases hrevoked
      · exact absurd ⟨_, hrotated, hmem, rfl⟩ hover

/-- **A call that others leave alone** has come as far as before. -/
theorem AuthTask.Covered.move {u : AuthTask} (h : u.Covered l) (hmove : TokenMove l l')
    (hids : (l.map RefreshToken.id).Nodup) (hids' : (l'.map RefreshToken.id).Nodup)
    (hheld : ∀ t ∈ l, .refreshToken t.id ∈ u.held → t ∈ l') : u.Covered l' := by
  cases u with
  | revoking =>
    obtain ⟨haims, hcovers | hover⟩ := h
    · refine ⟨haims.move hmove hids, covers_move hmove hids' haims (fun t ht hmem => ?_) hcovers⟩
      exact hheld t ht (mem_append_right _ (mem_map_of_mem hmem))
    · exact ⟨haims.move hmove hids, .inr (hover.move hmove hids)⟩
  | done result =>
    cases result with
    | revoked => exact fun f hf => (h f hf).move hmove hids
    | _ => trivial
  | _ => trivial

/-- A revocation that commits ends the families that it covers. -/
theorem ended_revoke (haims : r.Aims l families)
    (hcovers : SnapshotUpdate.Covers RefreshToken.id (good families) l [] got) :
    ∀ f ∈ families, FamilyEnded (l.map (RefreshToken.revokedIn got r.reason)) f := by
  intro f hf
  obtain ⟨x, hx, rfl, -⟩ := haims f hf
  refine ⟨⟨_, mem_map_of_mem hx, x.revokedIn_familyId⟩, fun t ht hfamily hlive => ?_⟩
  obtain ⟨y, hy, rfl⟩ := mem_map.mp ht
  obtain ⟨hylive, hnot, -⟩ := RefreshToken.of_revokedIn_none hlive
  rw [RefreshToken.revokedIn_familyId] at hfamily
  rw [← hfamily] at hf
  exact hnot (hcovers.mem_got y hy (good_iff.mpr ⟨hf, hylive⟩))

end Tables

namespace AuthService

variable {h : AuthHashes} {s s' : AuthService} {a : AuthAction} {i : ℕ} {t t' : AuthTask}

/-- What a revocation covers when it goes on. -/
theorem Turn.covered (hturn : Turn h s t t') (hf : Families s.tables.refreshTokens)
    (hcov : t.Covered s.tables.refreshTokens)
    (hsafe : t' ≠ .done .ended → t.Unrotated s.tables.refreshTokens) :
    t'.Covered s.tables.refreshTokens := by
  cases hturn with
  | refresh =>
    unfold refreshed
    split
    · trivial
    · trivial
    · split <;> trivial
  | @revoke r =>
    refine ⟨fun f hf => ?_, .inl fun x hx hgood => .inr ?_⟩
    · obtain ⟨x, hx, rfl⟩ := mem_map.mp hf
      obtain ⟨hmem, hcovers⟩ := mem_filter.mp hx
      exact ⟨x, hmem, rfl, hcovers⟩
    · obtain ⟨hfamily, hlive⟩ := good_iff.mp hgood
      obtain ⟨y, hy, hsame⟩ := mem_map.mp hfamily
      obtain ⟨hmem, hcovers⟩ := mem_filter.mp hy
      refine SnapshotUpdate.mem_found.mpr ⟨x, hx, rfl, ?_⟩
      unfold Revocation.hit
      rw [covers_congr hsame.symm (hf.user x hx y hmem hsame.symm).1, hcovers, hlive]
      rfl
  | @revoking r families todo got k hfree =>
    obtain ⟨haims, hcovers | hover⟩ := hcov
    · refine ⟨haims, .inl (hcovers.take fun x hx hgood => ?_)⟩
      obtain ⟨hfamily, hlive⟩ := good_iff.mp hgood
      unfold Revocation.hit
      rw [haims.covers hf hx hfamily, hlive]
      rfl
    · obtain ⟨x, hx, hmem, hrotated⟩ := hover
      rcases mem_cons.mp hmem with hk | hmem
      · exact absurd hrotated (hsafe (by simp) x hx hk)
      · exact ⟨haims, .inr ⟨x, hx, hmem, hrotated⟩⟩
  | _ => trivial

/-- A revocation that has got all its rows ends what it covers. -/
theorem Commits.covered (hc : Commits h s (.step i) s') (hi : s.tasks[i]? = some t)
    (hi' : s'.tasks[i]? = some t') (hcov : t.Covered s.tables.refreshTokens) :
    t'.Covered s'.tables.refreshTokens := by
  have hdone : ∀ {u u'}, s.tasks[i]? = some u → (s.tasks.set i u')[i]? = some t' → t' = u' := by
    intro u u' hu hset
    rw [getElem?_set_self (List.getElem?_eq_some_iff.mp hu).1] at hset
    exact (Option.some.inj hset).symm
  cases hc with
  | @revoke k r families got hk =>
    obtain rfl := hdone hk hi'
    obtain rfl := Option.some.inj (hk.symm.trans hi)
    show ∀ f ∈ families, FamilyEnded (s.tables.revoke r got).refreshTokens f
    rw [AuthTables.revoke_refreshTokens]
    obtain ⟨haims, hcovers | ⟨x, -, hmem, -⟩⟩ := hcov
    · exact ended_revoke haims hcovers
    · cases hmem
  | rotate hk =>
    obtain rfl := hdone hk hi'
    trivial
  | logIn hk =>
    obtain rfl := hdone hk hi'
    trivial
  | issue hk =>
    obtain rfl := hdone hk hi'
    trivial
  | verify hk =>
    obtain rfl := hdone hk hi'
    trivial

/-- **A revocation that does not find a token exchanged covers its families**, step by step,
and has ended them when it has committed. -/
theorem covered_act (hs : s.Steady h) (hact : act h s a = some s') (hi : s.tasks[i]? = some t)
    (hi' : s'.tasks[i]? = some t') (hcov : t.Covered s.tables.refreshTokens)
    (hsafe : a = .step i → t.Unrotated s.tables.refreshTokens) :
    t'.Covered s'.tables.refreshTokens := by
  have hs' := hs.act hact
  have hmove := act_move hs.sound hact
  have hothers : t' = t → (∀ x ∈ s.tables.refreshTokens, .refreshToken x.id ∈ t.held →
      x ∈ s'.tables.refreshTokens) → t'.Covered s'.tables.refreshTokens := fun heq hheld => by
    rw [heq]
    exact hcov.move hmove hs.sound.keyed.ids hs'.sound.keyed.ids hheld
  rcases act_cases hact with hc | ⟨call, -, rfl⟩ | ⟨j, u, u', ha, hj, -, rfl, hturn⟩
  · obtain ⟨rows, hspares, ⟨j, u, result, rfl, hj, rfl, htasks⟩ | ⟨htasks, hfree⟩⟩ := hc.spares
    · by_cases hij : i = j
      · subst hij
        exact hc.covered hi hi' hcov
      · rw [htasks, getElem?_set_ne (Ne.symm hij)] at hi'
        refine hothers (Option.some.inj (hi'.symm.trans hi)) fun x hx hmem => ?_
        exact hspares.refreshToken x hx (hs.sound.apart.notMem hi hj hij hmem)
    · rw [htasks] at hi'
      refine hothers (Option.some.inj (hi'.symm.trans hi)) fun x hx hmem => ?_
      exact hspares.refreshToken x hx fun hrow => hfree _ hrow t (mem_of_getElem? hi) hmem
  · refine hothers ?_ fun x hx _ => hx
    have hlt := (List.getElem?_eq_some_iff.mp hi).1
    have hi' : (s.tasks ++ [call.begins h])[i]? = some t' := hi'
    rw [getElem?_append_left hlt] at hi'
    exact Option.some.inj (hi'.symm.trans hi)
  · rcases HeldRows.getElem?_set_cases hi' with ⟨rfl, rfl⟩ | ⟨hne, hold⟩
    · obtain rfl := Option.some.inj (hj.symm.trans hi)
      refine hturn.covered hs.families hcov fun hnot => ?_
      rcases ha with rfl | ⟨-, hended⟩
      · exact hsafe rfl
      · exact absurd hended hnot
    · exact hothers (Option.some.inj (hold.symm.trans hi)) fun x hx _ => hx

/-- A call keeps its place. -/
theorem exists_task (hact : act h s a = some s') (hi : s.tasks[i]? = some t) :
    ∃ t', s'.tasks[i]? = some t' := by
  have hlt := (List.getElem?_eq_some_iff.mp hi).1
  have hle : s.tasks.length ≤ s'.tasks.length := by
    rcases act_cases hact with hc | ⟨call, -, rfl⟩ | ⟨j, u, u', -, -, -, rfl, -⟩
    · obtain ⟨rows, -, ⟨j, u, result, -, -, -, htasks⟩ | ⟨htasks, -⟩⟩ := hc.spares
      · rw [htasks, length_set]
      · rw [htasks]
    · show _ ≤ (s.tasks ++ [_]).length
      rw [length_append]
      exact Nat.le_add_right _ _
    · show _ ≤ (s.tasks.set j u').length
      rw [length_set]
  exact ⟨_, getElem?_eq_getElem (hlt.trans_le hle)⟩

theorem begins_covered (call : AuthCall) (l : List RefreshToken) : (call.begins h).Covered l := by
  refine AuthCall.begins_of (P := AuthTask.Covered l) trivial ?_
  cases call <;> trivial

/-- **No revocation finds a token exchanged** since its `UPDATE` has begun. -/
def SafeRevocation (s : AuthService) : AuthAction → Prop
  | .step i => ∀ t ∈ s.tasks[i]?, t.Unrotated s.tables.refreshTokens
  | _ => True

instance (s : AuthService) (a : AuthAction) : Decidable (SafeRevocation s a) := by
  unfold SafeRevocation
  split
  · next i =>
    cases s.tasks[i]? with
    | none => exact isTrue fun t ht => nomatch ht
    | some t => exact decidable_of_iff (t.Unrotated s.tables.refreshTokens) (by simp)
  · exact isTrue trivial

/-- Families end with their revocations. -/
structure Ended (h : AuthHashes) (s : AuthService) : Prop where
  steady : s.Steady h
  covered : ∀ t ∈ s.tasks, t.Covered s.tables.refreshTokens

theorem Ended.act (hs : s.Ended h) (hsafe : SafeRevocation s a) (hact : act h s a = some s') :
    s'.Ended h := by
  refine ⟨hs.steady.act hact, fun t' ht' => ?_⟩
  obtain ⟨i, hi'⟩ := mem_iff_getElem?.mp ht'
  have hcovered : ∀ {t}, s.tasks[i]? = some t → t'.Covered s'.tables.refreshTokens := by
    intro t hi
    refine covered_act hs.steady hact hi hi' (hs.covered t (mem_of_getElem? hi)) fun ha => ?_
    rw [ha] at hsafe
    exact hsafe t hi
  rcases task_cases hact hi' with hi | ⟨call, rfl⟩ | ⟨t, hi, -⟩ | ⟨t, hi, -⟩
  · exact hcovered hi
  · exact begins_covered call _
  · exact hcovered hi
  · exact hcovered hi

theorem ended_of_init (hinit : (system h).init s) : s.Ended h := by
  refine ⟨steady_of_init hinit, ?_⟩
  rw [show s = ⟨⟨[], [], []⟩, []⟩ from hinit]
  exact nofun

/-- A revocation reaches the families that were there, of those it is about. -/
def Reaches (l₀ : List RefreshToken) : AuthTask → Prop
  | .revoking r families _ _ | .done (.revoked r families _) =>
    ∀ t ∈ l₀, r.covers t = true → t.familyId ∈ families
  | _ => True

/-- What was there is there still. -/
def Kept (l₀ l : List RefreshToken) : Prop :=
  ∀ t₀ ∈ l₀, ∃ t ∈ l, TokenMove.SameToken t₀ t

theorem Kept.move {l₀ l l' : List RefreshToken} (hk : Kept l₀ l) (hmove : TokenMove l l')
    (hids : (l.map RefreshToken.id).Nodup) : Kept l₀ l' := by
  intro t₀ ht₀
  obtain ⟨t, ht, hsame⟩ := hk t₀ ht₀
  obtain ⟨t', ht', hsame', -⟩ := hmove.stays hids ht
  exact ⟨t', ht', hsame'.id.trans hsame.id, hsame'.familyId.trans hsame.familyId,
    hsame'.userId.trans hsame.userId, hsame'.tokenHash.trans hsame.tokenHash,
    hsame'.resets.trans hsame.resets⟩

/-- **A revocation reaches what was there when its call began**: it finds its families later. -/
theorem reaches_act {l₀ : List RefreshToken} (hk : Kept l₀ s.tables.refreshTokens)
    (hact : act h s a = some s') (hi : s.tasks[i]? = some t) (hi' : s'.tasks[i]? = some t')
    (hreach : Reaches l₀ t) : Reaches l₀ t' := by
  have hsame : ∀ {j : ℕ} {u u' : AuthTask}, s.tasks[j]? = some u → (s.tasks.set j u')[i]? = some t' →
      (j = i → u = t → Reaches l₀ u') → Reaches l₀ t' := by
    intro j u u' hj hset hmine
    rcases HeldRows.getElem?_set_cases hset with ⟨rfl, rfl⟩ | ⟨-, hold⟩
    · exact hmine rfl (Option.some.inj (hj.symm.trans hi))
    · obtain rfl := Option.some.inj (hold.symm.trans hi)
      exact hreach
  rcases act_cases hact with hc | ⟨call, -, rfl⟩ | ⟨j, u, u', -, hj, -, rfl, hturn⟩
  · cases hc with
    | @revoke k r families got hk =>
      refine hsame hk hi' fun _ heq => ?_
      subst heq
      exact hreach
    | rotate hk => exact hsame hk hi' fun _ _ => trivial
    | logIn hk => exact hsame hk hi' fun _ _ => trivial
    | issue hk => exact hsame hk hi' fun _ _ => trivial
    | verify hk => exact hsame hk hi' fun _ _ => trivial
    | register =>
      obtain rfl := Option.some.inj (hi'.symm.trans hi)
      exact hreach
    | leave =>
      obtain rfl := Option.some.inj (hi'.symm.trans hi)
      exact hreach
  · have hlt := (List.getElem?_eq_some_iff.mp hi).1
    have hi' : (s.tasks ++ [call.begins h])[i]? = some t' := hi'
    rw [getElem?_append_left hlt] at hi'
    obtain rfl := Option.some.inj (hi'.symm.trans hi)
    exact hreach
  · refine hsame hj hi' fun _ heq => ?_
    subst heq
    cases hturn with
    | @refresh raw now new rt hrt hfree =>
      unfold refreshed
      split
      · trivial
      · trivial
      · split <;> trivial
    | @revoke r =>
      intro t₀ ht₀ hcovers
      obtain ⟨x, hx, hsame'⟩ := hk t₀ ht₀
      refine mem_map.mpr ⟨x, mem_filter.mpr ⟨hx, ?_⟩, hsame'.familyId⟩
      rw [covers_congr hsame'.familyId hsame'.userId]
      exact hcovers
    | @revoking r families todo got k hfree => exact hreach
    | _ => trivial

theorem Steady.rotating_ne (hs : s.Steady h) {familyId : Ulid}
    (hended : ∀ t ∈ s.tables.refreshTokens, t.familyId = familyId → t.revoked ≠ none) {raw : String}
    {now : ℕ} {new : OpaqueToken} {rt : RefreshToken}
    (hi : s.tasks[i]? = some (.rotating raw now new rt)) : rt.familyId ≠ familyId := by
  obtain ⟨hrt, hlive, -⟩ := hs.sound.fits _ (mem_of_getElem? hi)
  exact fun heq => hended rt hrt heq hlive

/-- **A session that is revoked has ended for good**, where no revocation finds a token that
was exchanged since its `UPDATE` began. When a revocation has committed, no token of any
family that it was about and that was there when its call began is good, in that state and
in all later ones, and none is being exchanged. -/
theorem revoked_for_good {call : AuthCall} {s₀ s₁ : AuthService} {r : Revocation}
    {families rows : List Ulid} (hreachable : (system h).ReachableBy SafeRevocation s₀)
    (hstart : (system h).step s₀ (.start call) = some s₁)
    (hrun : (system h).Steps SafeRevocation s₁ s)
    (hdone : s.tasks[s₀.tasks.length]? = some (.done (.revoked r families rows))) :
    ∀ t₀ ∈ s₀.tables.refreshTokens, r.covers t₀ = true →
      (∀ t ∈ s.tables.refreshTokens, t.familyId = t₀.familyId → t.revoked ≠ none) ∧
      ∀ (i : ℕ) raw now new rt, s.tasks[i]? = some (.rotating raw now new rt) →
        rt.familyId ≠ t₀.familyId := by
  have hs₀ : s₀.Ended h := hreachable.invariant (fun _ hinit => ended_of_init hinit)
    fun _ _ _ hs hsafe hstep => hs.act hsafe hstep
  have hs₁ : s₁.Ended h :=
    hs₀.act (show SafeRevocation s₀ (.start call) from trivial) hstart
  have hs : s.Ended h := hrun.preserves (fun _ _ _ hs hsafe hstep => hs.act hsafe hstep) hs₁
  have htracks : s.Steady h ∧ Kept s₀.tables.refreshTokens s.tables.refreshTokens ∧
      ∃ t, s.tasks[s₀.tasks.length]? = some t ∧ Reaches s₀.tables.refreshTokens t := by
    refine hrun.preserves (I := fun s => s.Steady h ∧ Kept s₀.tables.refreshTokens
      s.tables.refreshTokens ∧ ∃ t, s.tasks[s₀.tasks.length]? = some t ∧
        Reaches s₀.tables.refreshTokens t) (fun u a u' hu _ hact => ?_) ?_
    · obtain ⟨hsteady, hkept, t, ht, hreach⟩ := hu
      obtain ⟨t', ht'⟩ := exists_task hact ht
      exact ⟨hsteady.act hact, hkept.move (act_move hsteady.sound hact) hsteady.sound.keyed.ids, t',
        ht', reaches_act hkept hact ht ht' hreach⟩
    · cases hstart
      refine ⟨hs₁.steady, fun t₀ ht₀ => ⟨t₀, ht₀, ⟨rfl, rfl, rfl, rfl, rfl⟩⟩, call.begins h, ?_, ?_⟩
      · exact getElem?_concat_length
      · refine AuthCall.begins_of (P := Reaches s₀.tables.refreshTokens) trivial ?_
        cases call <;> trivial
  obtain ⟨-, -, t, ht, hreach⟩ := htracks
  obtain rfl := Option.some.inj (ht.symm.trans hdone)
  intro t₀ ht₀ hcovers
  have hended := (hs.covered _ (mem_of_getElem? hdone) _ (hreach t₀ ht₀ hcovers)).2
  exact ⟨hended, fun i raw now new rt hi => hs.steady.rotating_ne hended hi⟩

/-- A session that was refreshed once logs out, while its token is presented again. -/
theorem revoked_for_good_logout : ∃ s₀ s₁ s, (system .plain).ReachableBy SafeRevocation s₀ ∧
      (system .plain).step s₀ (.start (.logout "t1")) = some s₁ ∧
      (system .plain).Steps SafeRevocation s₁ s ∧
      (∃ t₀ ∈ s₀.tables.refreshTokens, t₀.familyId = 100) ∧
      ∀ t ∈ s.tables.refreshTokens, t.familyId = 100 → t.revoked ≠ none := by
  have hrun : ((system .plain).runBy SafeRevocation ⟨⟨[], [], []⟩, []⟩
      [.register 1 "a" "p" ⟨10, "t0"⟩ 100 0, .start (.refresh "t0" 1 ⟨11, "t1"⟩), .step 0,
        .step 0]).any (fun s₀ => (s₀.tables.refreshTokens.any fun t => decide (t.familyId = 100)) &&
      ((system .plain).step s₀ (.start (.logout "t1"))).any fun s₁ =>
        ((system .plain).runBy SafeRevocation s₁ [.step 1, .start (.refresh "t1" 2 ⟨12, "t2"⟩),
          .step 1, .step 1, .step 1, .step 2]).any fun s => decide (s.tasks[s₀.tasks.length]? =
            some (.done (.revoked (.logout 100) [100, 100] [11])))) = true := by
    decide +kernel
  obtain ⟨s₀, hreachable, htest⟩ := exists_of_runBy hrun rfl
  obtain ⟨hany, hrest⟩ := (Bool.and_eq_true _ _).mp htest
  obtain ⟨t, ht, htfamily⟩ := any_eq_true.mp hany
  obtain ⟨s₁, hs₁, hrest⟩ := (Option.any_eq_true _ _).mp hrest
  obtain ⟨s, hs, hdone⟩ := (Option.any_eq_true _ _).mp hrest
  have hsteps := steps_of_runBy hs
  have hended := revoked_for_good hreachable hs₁ hsteps (of_decide_eq_true hdone) t ht htfamily
  rw [of_decide_eq_true htfamily] at hended
  exact ⟨s₀, s₁, s, hreachable, hs₁, hsteps, ⟨t, ht, of_decide_eq_true htfamily⟩, hended.1⟩

/-- **The successor stays.** A token was exchanged, and then is presented by a thief, while its
owner exchanges the next one. The thief's call finds the reuse and revokes the family, which
is over with it; but the token that its owner gets is good. -/
theorem successor_stays : ∃ s₀ s₁ s, (system .plain).Reachable s₀ ∧
      (system .plain).step s₀ (.start (.refresh "t0" 3 ⟨13, "x"⟩)) = some s₁ ∧
      (system .plain).Steps (fun _ _ => True) s₁ s ∧
      ∃ rt families rows, s.tasks[s₀.tasks.length]? =
          some (.done (.revoked (.reuse rt) families rows)) ∧
        ∃ t₀ ∈ s₀.tables.refreshTokens, (Revocation.reuse rt).covers t₀ = true ∧
          ∃ t ∈ s.tables.refreshTokens, t.familyId = t₀.familyId ∧ t.revoked = none := by
  have hrun : ((system .plain).run ⟨⟨[], [], []⟩, []⟩
      [.register 1 "a" "p" ⟨10, "t0"⟩ 100 0, .start (.refresh "t0" 1 ⟨11, "t1"⟩), .step 0, .step 0,
        .start (.refresh "t1" 2 ⟨12, "t2"⟩), .step 1]).any (fun s₀ =>
      (s₀.tables.refreshTokens.any fun t => decide (t.familyId = 100)) &&
      ((system .plain).step s₀ (.start (.refresh "t0" 3 ⟨13, "x"⟩))).any fun s₁ =>
        ((system .plain).run s₁ [.step 2, .step 2, .step 1, .step 2, .step 2]).any fun s =>
          decide (s.tasks[s₀.tasks.length]? = some (.done (.revoked
            (.reuse ⟨10, 1, 100, "t0", none, RefreshTokenTTL, some .rotated, 0⟩) [100, 100] []))) &&
          s.tables.refreshTokens.any fun t =>
            decide (t.familyId = 100 ∧ t.revoked = none)) = true := by
    decide +kernel
  obtain ⟨s₀, hreachable, htest⟩ := exists_of_run hrun rfl
  obtain ⟨hany, hrest⟩ := (Bool.and_eq_true _ _).mp htest
  obtain ⟨t₀, ht₀, hfamily₀⟩ := any_eq_true.mp hany
  obtain ⟨s₁, hs₁, hrest⟩ := (Option.any_eq_true _ _).mp hrest
  obtain ⟨s, hs, hrest⟩ := (Option.any_eq_true _ _).mp hrest
  obtain ⟨hdone, hlive⟩ := (Bool.and_eq_true _ _).mp hrest
  obtain ⟨t, ht, htest⟩ := any_eq_true.mp hlive
  obtain ⟨hfamily, hgood⟩ := of_decide_eq_true htest
  have hsteps := steps_of_run (P := fun _ _ => True) (fun _ _ _ => trivial) hs
  exact ⟨s₀, s₁, s, hreachable, hs₁, hsteps, _, _, _, of_decide_eq_true hdone, t₀, ht₀, hfamily₀,
    t, ht, hfamily.trans (of_decide_eq_true hfamily₀).symm, hgood⟩

end AuthService

end Hibari
