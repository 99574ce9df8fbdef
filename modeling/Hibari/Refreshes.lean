import Hibari.Revocations

/-!
# A refresh token is exchanged once

`Refresh` locks its token before it reads whether the token is good, and keeps the lock until
it has marked the token and added the next one. So whoever presents the same token meanwhile
waits, and then finds it exchanged: each token is exchanged once, and the tokens of a family
form one chain (`refreshed_once`). A token that is found exchanged ends its family, unless
another token of the family is being exchanged at that moment.
-/

namespace Hibari

open List Option HeldRows AuthTables RefreshToken

namespace AuthService

variable {h : AuthHashes} {s s' : AuthService} {a : AuthAction} {i : ℕ} {t t' : AuthTask}
  {rt : RefreshToken} {raw : String} {now : ℕ} {new : OpaqueToken}

/-! ## Once -/

/-- **A token that was exchanged is marked**, and was by one call. -/
structure Exchanged (h : AuthHashes) (s : AuthService) : Prop where
  rotated : ∀ (i : ℕ) raw new, s.tasks[i]? = some (AuthTask.done (.refreshed raw new)) →
    ∃ x ∈ s.tables.refreshTokens, x.tokenHash = h.hashOpaqueToken raw ∧ x.revoked = some .rotated
  once : ∀ (i j : ℕ) raw new new', s.tasks[i]? = some (AuthTask.done (.refreshed raw new)) →
    s.tasks[j]? = some (AuthTask.done (.refreshed raw new')) → i = j

/-- Only a commit exchanges a token. -/
theorem Turn.ne_refreshed (hturn : Turn h s t t') (raw : String) (new : Ulid) :
    t' ≠ .done (.refreshed raw new) := by
  cases hturn with
  | refresh =>
    unfold refreshed
    split
    · simp
    · simp
    · split <;> simp
  | _ => simp

theorem Exchanged.act (he : s.Exchanged h) (hs : s.Steady h) (hact : act h s a = some s') :
    s'.Exchanged h := by
  have hmarked : ∀ {raw : String}, (∃ x ∈ s.tables.refreshTokens,
      x.tokenHash = h.hashOpaqueToken raw ∧ x.revoked = some .rotated) →
      ∃ x ∈ s'.tables.refreshTokens, x.tokenHash = h.hashOpaqueToken raw ∧
        x.revoked = some .rotated := by
    rintro raw ⟨x, hx, hhash, hrotated⟩
    obtain ⟨x', hx', -, hsame⟩ := (act_move hs.sound hact).stays hs.sound.keyed.ids hx
    rw [hsame (by rw [hrotated]; simp)] at hx'
    exact ⟨x, hx', hhash, hrotated⟩
  -- the calls that have exchanged a token are those that had, unless one does now
  have hkeeps : (∀ (i : ℕ) raw new, s'.tasks[i]? = some (AuthTask.done (.refreshed raw new)) →
      s.tasks[i]? = some (AuthTask.done (.refreshed raw new))) → s'.Exchanged h := fun hold =>
    ⟨fun i raw new hi => hmarked (he.rotated i raw new (hold i raw new hi)),
      fun i j raw new new' hi hj => he.once i j raw new new' (hold i raw new hi) (hold j raw new' hj)⟩
  have hset : ∀ {j : ℕ} {u : AuthTask}, s'.tasks = s.tasks.set j u →
      (∀ raw new, u ≠ .done (.refreshed raw new)) → s'.Exchanged h := by
    intro j u htasks hnot
    refine hkeeps fun i raw new hi => ?_
    rw [htasks] at hi
    rcases getElem?_set_cases hi with ⟨-, heq⟩ | ⟨-, hi⟩
    · exact absurd heq.symm (hnot raw new)
    · exact hi
  have hs' := hs.act hact
  rcases act_cases hact with hc | ⟨call, -, rfl⟩ | ⟨j, u, u', -, hj, -, rfl, hturn⟩
  · cases hc with
    | @rotate k raw now new rt d hk hd =>
      obtain ⟨hrt, hlive, hhash⟩ := hs.sound.fits _ (mem_of_getElem? hk)
      have hnone : ∀ (i : ℕ) new', s.tasks[i]? ≠ some (AuthTask.done (.refreshed raw new')) := by
        intro i new' hi
        obtain ⟨x, hx, hxhash, hrotated⟩ := he.rotated i raw new' hi
        rw [hs.sound.keyed.eq_of_hash hx hrt (hxhash.trans hhash.symm), hlive] at hrotated
        cases hrotated
      refine ⟨fun i raw' new' hi => ?_, fun i j raw' new' new'' hi hj => ?_⟩
      · rcases getElem?_set_cases hi with ⟨rfl, heq⟩ | ⟨-, hi⟩
        · obtain ⟨rfl, rfl⟩ := AuthResult.refreshed.inj (AuthTask.done.inj heq)
          obtain ⟨rfl, -⟩ := rotate_eq_some hd
          refine ⟨rt.revokedIn [rt.id] .rotated,
            mem_append_left _ (List.mem_map_of_mem hrt), ?_, ?_⟩
          · rw [revokedIn_tokenHash]
            exact hhash
          · rw [revokedIn_of_mem (mem_singleton.mpr rfl)]
        · exact hmarked (he.rotated i raw' new' hi)
      · rcases getElem?_set_cases hi with ⟨rfl, heq⟩ | ⟨-, hiold⟩
        · obtain ⟨rfl, rfl⟩ := AuthResult.refreshed.inj (AuthTask.done.inj heq)
          rcases getElem?_set_cases hj with ⟨rfl, -⟩ | ⟨-, hjold⟩
          · rfl
          · exact absurd hjold (hnone j new'')
        · rcases getElem?_set_cases hj with ⟨rfl, heq⟩ | ⟨-, hjold⟩
          · obtain ⟨rfl, rfl⟩ := AuthResult.refreshed.inj (AuthTask.done.inj heq)
            exact absurd hiold (hnone i new')
          · exact he.once i j raw' new' new'' hiold hjold
    | register | leave => exact hkeeps fun i raw new hi => hi
    | _ => exact hset rfl (by simp)
  · refine hkeeps fun i raw new hi => ?_
    rcases getElem?_concat_cases hi with ⟨-, heq⟩ | hi
    · have hnot : call.begins h ≠ .done (.refreshed raw new) := by
        refine AuthCall.begins_of (P := fun t => t ≠ .done (.refreshed raw new)) (by simp) ?_
        cases call <;> simp [AuthCall.task]
      exact absurd heq.symm hnot
    · exact hi
  · exact hset rfl hturn.ne_refreshed

theorem exchanged_of_init (hinit : (system h).init s) : s.Exchanged h := by
  rw [show s = ⟨⟨[], [], []⟩, []⟩ from hinit]
  exact ⟨fun i raw new hi => absurd hi (by simp), fun i j raw new new' hi => absurd hi (by simp)⟩

/-! ## Reuse -/

/-- No token of a family is being exchanged. -/
def NoRotation (s : AuthService) (familyId : Ulid) : Prop :=
  ∀ (i : ℕ) raw now new rt, s.tasks[i]? = some (AuthTask.rotating raw now new rt) →
    rt.familyId ≠ familyId

/-- **A token is marked by the call that has its row.** -/
theorem rotated_of_act {x : RefreshToken} (hact : act h s a = some s')
    (hx : x ∈ s'.tables.refreshTokens) (hrotated : x.revoked = some .rotated) :
    x ∈ s.tables.refreshTokens ∨ ∃ (i : ℕ) (raw : String) (now : ℕ) (new : OpaqueToken) (rt : RefreshToken),
      s.tasks[i]? = some (AuthTask.rotating raw now new rt) ∧ rt.id = x.id := by
  have hnew : ∀ {l : List RefreshToken} {y : RefreshToken}, y.revoked = none → x ∈ l ++ [y] →
      x ∈ l := by
    intro l y hy hmem
    rcases mem_append.mp hmem with hmem | hmem
    · exact hmem
    · rw [mem_singleton.mp hmem, hy] at hrotated
      cases hrotated
  rcases act_cases hact with hc | ⟨call, -, rfl⟩ | ⟨j, u, u', -, -, -, rfl, -⟩
  · cases hc with
    | @rotate i raw now new rt d hi hd =>
      obtain ⟨rfl, -⟩ := rotate_eq_some hd
      obtain ⟨y, hy, rfl⟩ := List.mem_map.mp (hnew rfl hx)
      by_cases hmem : y.id ∈ [rt.id]
      · refine .inr ⟨i, raw, now, new, rt, hi, ?_⟩
        rw [revokedIn_id]
        exact (mem_singleton.mp hmem).symm
      · rw [revokedIn_of_notMem hmem]
        exact .inl hy
    | @revoke i r families got hi =>
      have hx : x ∈ (s.tables.revoke r got).refreshTokens := hx
      rw [revoke_refreshTokens] at hx
      obtain ⟨y, hy, rfl⟩ := List.mem_map.mp hx
      by_cases hmem : y.id ∈ got
      · rw [revokedIn_of_mem hmem] at hrotated
        cases r <;> exact absurd hrotated (by simp [Revocation.reason])
      · rw [revokedIn_of_notMem hmem]
        exact .inl hy
    | logIn _ hd =>
      obtain ⟨rfl, -, -⟩ := createSession_eq_some hd
      exact .inl (hnew rfl hx)
    | issue _ hd =>
      obtain ⟨rfl, -⟩ := issue_eq_some hd
      exact .inl hx
    | register hd hsession =>
      obtain ⟨rfl, -⟩ := createUser_eq_some hd
      obtain ⟨rfl, -, -⟩ := createSession_eq_some hsession
      exact .inl (hnew rfl hx)
    | _ => exact .inl hx
  · exact .inl hx
  · exact .inl hx

/-- **A call that has found its token exchanged**: it is about the token's family, and has
found none of the rows that it has still to take exchanged. -/
def Reuses (l : List RefreshToken) (rt : RefreshToken) : AuthTask → Prop
  | .revoke r => r = .reuse rt
  | .revoking r families todo _ => r = .reuse rt ∧ rt.familyId ∈ families ∧
      (∀ k ∈ todo, ∃ x ∈ l, x.id = k ∧ x.familyId = rt.familyId) ∧ ¬ Overtaken l todo
  | .done (.revoked r families _) => r = .reuse rt ∧ rt.familyId ∈ families
  | .done _ => True
  | _ => False

theorem Reuses.unrotated {l : List RefreshToken} (hr : Reuses l rt t) :
    t.Unrotated l := by
  cases t with
  | revoking _ _ todo => cases todo with
    | nil => trivial
    | cons =>
      intro x hx hid hrotated
      exact hr.2.2.2 ⟨x, hx, hid ▸ (.head _), hrotated⟩
  | _ => trivial

/-- It goes on. -/
theorem Turn.reuses (hturn : Turn h s t t') (hs : s.Steady h)
    (hfits : t.Fits h s.tables) (hr : Reuses s.tables.refreshTokens rt t) :
    Reuses s.tables.refreshTokens rt t' := by cases hturn with
  | @revoke r =>
    have hr : r = .reuse rt := hr
    subst hr
    refine ⟨rfl, ?_, fun k hk => ?_, ?_⟩
    · exact List.mem_map.mpr ⟨rt, mem_filter.mpr ⟨hfits.1, decide_eq_true rfl⟩, rfl⟩
    · obtain ⟨x, hx, hid, hhit⟩ := SnapshotUpdate.mem_found.mp hk
      exact ⟨x, hx, hid, of_decide_eq_true ((Bool.and_eq_true _ _).mp hhit).1⟩
    · rintro ⟨x, hx, hmem, hrotated⟩
      obtain ⟨y, hy, hid, hhit⟩ := SnapshotUpdate.mem_found.mp hmem
      have hlive := isNone_iff_eq_none.mp ((Bool.and_eq_true _ _).mp hhit).2
      rw [hs.sound.keyed.eq_of_id hy hx hid, hrotated] at hlive
      cases hlive
  | revoking =>
    obtain ⟨heq, hfamily, htodo, hover⟩ := hr
    refine ⟨heq, hfamily, fun k hk => htodo k (.tail _ hk), ?_⟩
    exact fun ⟨x, hx, hmem, hrotated⟩ => hover ⟨x, hx, .tail _ hmem, hrotated⟩
  | ended => trivial
  | _ => exact absurd hr (by simp [Reuses])

/-- **Nothing else is exchanged while it goes on**, so that none of its rows is. -/
theorem reuses_act (hs : s.Steady h)
    (hno : a ≠ .step i → NoRotation s rt.familyId) (hact : act h s a = some s')
    (hi : s.tasks[i]? = some t) (hi' : s'.tasks[i]? = some t')
    (hr : Reuses s.tables.refreshTokens rt t) : Reuses s'.tables.refreshTokens rt t' := by
  have hmove := act_move hs.sound hact
  have hothers : a ≠ .step i → t' = t → Reuses s'.tables.refreshTokens rt t' := by
    intro ha heq
    subst heq
    cases t' with
    | revoking =>
      obtain ⟨heq, hfamily, htodo, hover⟩ := hr
      refine ⟨heq, hfamily, fun k hk => ?_, ?_⟩
      · obtain ⟨x, hx, hid, hxfamily⟩ := htodo k hk
        obtain ⟨x', hx', hsame, -⟩ := hmove.stays hs.sound.keyed.ids hx
        exact ⟨x', hx', hsame.id.trans hid, hsame.familyId.trans hxfamily⟩
      · rintro ⟨x, hx, hmem, hrotated⟩
        rcases rotated_of_act hact hx hrotated with hold | ⟨j, raw, now, new, rt', hj, hid⟩
        · exact hover ⟨x, hold, hmem, hrotated⟩
        · obtain ⟨y, hy, hyid, hyfamily⟩ := htodo x.id hmem
          obtain ⟨hrt', -, -⟩ := hs.sound.fits _ (mem_of_getElem? hj)
          rw [hs.sound.keyed.eq_of_id hy hrt' (hyid.trans hid.symm)] at hyfamily
          exact hno ha j raw now new rt' hj hyfamily
    | revoke => exact hr | done result =>
      cases result with
      | revoked => exact hr
      | _ => trivial
    | _ => exact absurd hr (by simp [Reuses])
  have hset : ∀ {j : ℕ} {u u' : AuthTask}, s.tasks[j]? = some u →
      (s.tasks.set j u')[i]? = some t' → (j = i ∧ u = t ∧ t' = u') ∨ (j ≠ i ∧ t' = t) := by
    intro j u u' hj hset
    rcases getElem?_set_cases hset with ⟨rfl, rfl⟩ | ⟨hne, hold⟩
    · exact .inl ⟨rfl, some.inj (hj.symm.trans hi), rfl⟩
    · exact .inr ⟨Ne.symm hne, some.inj (hold.symm.trans hi)⟩
  rcases act_cases hact with hc | ⟨call, rfl, rfl⟩ | ⟨j, u, u', ha, hj, -, rfl, hturn⟩
  · have hmine : ∀ {k : ℕ} {u u' : AuthTask}, a = .step k → s.tasks[k]? = some u →
        (s.tasks.set k u')[i]? = some t' →
        (Reuses s.tables.refreshTokens rt u → Reuses s'.tables.refreshTokens rt u') →
        Reuses s'.tables.refreshTokens rt t' := by
      intro k u u' ha hk hset' hdone
      rcases hset hk hset' with ⟨-, rfl, rfl⟩ | ⟨hne, heq⟩
      · exact hdone hr
      · refine hothers (fun heq' => hne ?_) heq
        rw [ha] at heq'
        exact AuthAction.step.inj heq'
    cases hc with
    | revoke hk => exact hmine rfl hk hi' fun hr => ⟨hr.1, hr.2.1⟩
    | rotate hk => exact hmine rfl hk hi' fun hr => hr.elim
    | logIn hk => exact hmine rfl hk hi' fun hr => hr.elim
    | issue hk => exact hmine rfl hk hi' fun hr => hr.elim
    | verify hk => exact hmine rfl hk hi' fun hr => hr.elim
    | register =>
      exact hothers (by simp) (some.inj (hi'.symm.trans hi))
    | leave => exact hothers (by simp) (some.inj (hi'.symm.trans hi))
  · have hlt := (List.getElem?_eq_some_iff.mp hi).1
    have hi' : (s.tasks ++ [call.begins h])[i]? = some t' := hi'
    rw [getElem?_append_left hlt] at hi'
    exact hothers (by simp) (some.inj (hi'.symm.trans hi))
  · rcases hset hj hi' with ⟨rfl, rfl, rfl⟩ | ⟨hne, heq⟩
    · exact hturn.reuses hs (hs.sound.fits _ (mem_of_getElem? hj)) hr
    · refine hothers (fun heq' => hne ?_) heq
      rcases ha with rfl | ⟨rfl, -⟩
      · exact AuthAction.step.inj heq'
      · cases heq'

/-- The family of a token that is used again is the only one that is written. -/
theorem family_revoke {d : AuthTables} {got : List Ulid} {familyId : Ulid}
    (hgot : SnapshotUpdate.Holds RefreshToken.id (Revocation.hit (.reuse rt)) d.refreshTokens got)
    (hd : d.Keyed) (hne : familyId ≠ rt.familyId) :
    family (d.revoke (.reuse rt) got).refreshTokens familyId = family d.refreshTokens familyId := by
  rw [revoke_refreshTokens, family_map fun x => x.revokedIn_familyId]
  refine (map_congr_left fun x hx => ?_).trans (List.map_id _)
  refine revokedIn_of_notMem fun hmem => hne ?_
  obtain ⟨hx, hfamily⟩ := mem_family.mp hx
  obtain ⟨y, hy, hid, hhit⟩ := hgot x.id hmem
  rw [hd.eq_of_id hy hx hid] at hhit
  rw [← hfamily]
  exact of_decide_eq_true ((Bool.and_eq_true _ _).mp hhit).1

/-- **A token that is found exchanged ends its family**, if none of the family is being
exchanged meanwhile, and changes no other family. -/
theorem reuse_ends {s₁ s₂ : AuthService} {r : Revocation}
    {families rows : List Ulid} (hs : s.Steady h) (hi : s.tasks[i]? = some (.revoke (.reuse rt)))
    (hrun : (system h).Steps (fun u _ => NoRotation u rt.familyId) s s₁)
    (hact : act h s₁ (.step i) = some s₂)
    (hdone : s₂.tasks[i]? = some (.done (.revoked r families rows))) :
    FamilyEnded s₂.tables.refreshTokens rt.familyId ∧ ∀ familyId ≠ rt.familyId,
      family s₂.tables.refreshTokens familyId = family s₁.tables.refreshTokens familyId := by
  obtain ⟨hs₁, t, ht, hcov, hr⟩ : s₁.Steady h ∧ ∃ t, s₁.tasks[i]? = some t ∧
      t.Covered s₁.tables.refreshTokens ∧ Reuses s₁.tables.refreshTokens rt t := by
    refine hrun.preserves (I := fun u => u.Steady h ∧ ∃ t, u.tasks[i]? = some t ∧
      t.Covered u.tables.refreshTokens ∧ Reuses u.tables.refreshTokens rt t)
      (fun u a u' hu hno hstep => ?_)
      ⟨hs, _, hi, trivial, (show Reuses _ rt (.revoke (.reuse rt)) from rfl)⟩
    obtain ⟨hu, t, ht, hcov, hr⟩ := hu
    obtain ⟨t', ht'⟩ := exists_task hstep ht
    exact ⟨hu.act hstep, t', ht', covered_act hu hstep ht ht' hcov fun _ => hr.unrotated,
      reuses_act hu (fun _ => hno) hstep ht ht' hr⟩
  have hcov' := covered_act hs₁ hact ht hdone hcov fun _ => hr.unrotated
  have hr' := reuses_act hs₁ (fun hne => absurd rfl hne) hact ht hdone hr
  refine ⟨hcov' _ hr'.2, fun familyId hne => ?_⟩
  rcases act_cases hact with hc | ⟨call, ha, -⟩ | ⟨j, u, u', -, -, -, rfl, -⟩
  · cases hc with
    | @revoke k r families got hk =>
      obtain rfl := some.inj (hk.symm.trans ht)
      obtain ⟨rfl, -⟩ := hr
      exact family_revoke (hs₁.sound.fits _ (mem_of_getElem? hk)).2 hs₁.sound.keyed hne
    | rotate hk =>
      obtain rfl := some.inj (hk.symm.trans ht)
      exact hr.elim
    | logIn hk =>
      obtain rfl := some.inj (hk.symm.trans ht)
      exact hr.elim
    | issue hk =>
      obtain rfl := some.inj (hk.symm.trans ht)
      exact hr.elim | verify hk =>
      obtain rfl := some.inj (hk.symm.trans ht)
      exact hr.elim
  · cases ha
  · rfl

/-! ## What a call that fails leaves -/

variable (hi : s.tasks[i]? = some (.refresh raw now new))
include hi

/-- A call that finds no good token ends, and nothing else. -/
theorem refresh_refused (hact : act h s (.step i) = some s')
    (hbad : ∀ rt, s.tables.getRefreshToken (h.hashOpaqueToken raw) = some rt →
      (rt.revoked ≠ none ∧ rt.revoked ≠ some .rotated) ∨ (rt.revoked = none ∧ rt.expiresAt ≤ now)) :
    s' = s.goes i (.done .ended) := by
  simp only [AuthService.act, hi, bind_some, next] at hact
  cases hrt : s.tables.getRefreshToken (h.hashOpaqueToken raw) with
  | none =>
    rw [hrt] at hact
    exact (some.inj hact).symm
  | some rt =>
    rw [hrt] at hact
    obtain ⟨-, rfl⟩ := locks_eq_some hact
    have hended : refreshed raw now new rt = .done .ended := by
      unfold refreshed
      rcases hbad rt hrt with ⟨hrevoked, hnot⟩ | ⟨hnone, hexpired⟩
      · split
        · next heq => exact absurd heq hnot
        · rfl
        · next heq => exact absurd heq hrevoked
      · rw [hnone]
        exact if_neg (not_lt.mpr hexpired)
    rw [hended]

/-- A call that finds its token exchanged goes on to revoke the family. -/
theorem refresh_reused (hact : act h s (.step i) = some s')
    (hrt : s.tables.getRefreshToken (h.hashOpaqueToken raw) = some rt)
    (hrotated : rt.revoked = some .rotated) : s' = s.goes i (.revoke (.reuse rt)) := by
  simp only [AuthService.act, hi, bind_some, next, hrt] at hact
  obtain ⟨-, rfl⟩ := locks_eq_some hact
  have hreuse : refreshed raw now new rt = .revoke (.reuse rt) := by
    unfold refreshed
    rw [hrotated]
  rw [hreuse]

omit hi

theorem tables_of_fail (hact : act h s (.fail i) = some s') : s'.tables = s.tables := by
  rcases act_cases hact with hc | ⟨call, ha, -⟩ | ⟨j, u, u', -, -, -, rfl, -⟩
  · cases hc
  · cases ha
  · rfl

/-- A token whose exchange fails is as good as before, and no call has its row. -/
theorem usable_of_fail (hs : s.Sound h) (hi : s.tasks[i]? = some (.rotating raw now new rt))
    (hact : act h s (.fail i) = some s') :
    rt ∈ s'.tables.refreshTokens ∧ rt.revoked = none ∧ s'.FreeRow (.refreshToken rt.id) := by
  obtain ⟨hrt, hlive, -⟩ := hs.fits _ (mem_of_getElem? hi)
  rw [tables_of_fail hact]
  refine ⟨hrt, hlive, fun u hu hrow => ?_⟩
  simp only [AuthService.act, hi] at hact
  cases hact
  obtain ⟨j, hj⟩ := mem_iff_getElem?.mp hu
  rcases getElem?_set_cases hj with ⟨-, rfl⟩ | ⟨hne, hold⟩
  · cases hrow
  · exact hne (hs.apart j i u _ hold hi _ hrow (.head _))

/-- **A refresh token is exchanged once.** Whatever calls run at once and fail, the tokens of
a family are one chain, of which only the last may be good; each token is exchanged by one
call; a call that finds no good token ends without having written anything; where a call
fails its token can be used as before; and one that finds its token exchanged, while no token
of the family is being exchanged, leaves no good token of the family, and the other families
as they were. -/
theorem refreshed_once (hreachable : (system h).Reachable s) :
    (∀ familyId, TokenChain (family s.tables.refreshTokens familyId)) ∧
    (∀ x ∈ s.tables.refreshTokens, x.revoked = none → ∃ earlier,
      family s.tables.refreshTokens x.familyId = earlier ++ [x] ∧
        ∀ y ∈ earlier, y.revoked = some .rotated) ∧
    (∀ (i j : ℕ) raw new new', s.tasks[i]? = some (AuthTask.done (.refreshed raw new)) →
      s.tasks[j]? = some (AuthTask.done (.refreshed raw new')) → i = j) ∧
    (∀ (i : ℕ) raw now new s', s.tasks[i]? = some (AuthTask.refresh raw now new) →
      (system h).step s (.step i) = some s' →
      ((∀ rt, s.tables.getRefreshToken (h.hashOpaqueToken raw) = some rt →
          (rt.revoked ≠ none ∧ rt.revoked ≠ some .rotated) ∨
            (rt.revoked = none ∧ rt.expiresAt ≤ now)) → s' = s.goes i (.done .ended)) ∧
        ∀ rt, s.tables.getRefreshToken (h.hashOpaqueToken raw) = some rt →
          rt.revoked = some .rotated → s' = s.goes i (.revoke (.reuse rt))) ∧
    (∀ (i : ℕ) s', (system h).step s (.fail i) = some s' → s'.tables = s.tables ∧
      ∀ raw now new rt, s.tasks[i]? = some (AuthTask.rotating raw now new rt) →
        rt ∈ s'.tables.refreshTokens ∧ rt.revoked = none ∧ s'.FreeRow (.refreshToken rt.id)) ∧
    ∀ (i : ℕ) rt s₁ s₂ r families rows, s.tasks[i]? = some (AuthTask.revoke (.reuse rt)) →
      (system h).Steps (fun u _ => NoRotation u rt.familyId) s s₁ →
      (system h).step s₁ (.step i) = some s₂ →
      s₂.tasks[i]? = some (AuthTask.done (.revoked r families rows)) →
      (∀ x ∈ s₂.tables.refreshTokens, x.familyId = rt.familyId → x.revoked ≠ none) ∧
        ∀ familyId ≠ rt.familyId,
          family s₂.tables.refreshTokens familyId = family s₁.tables.refreshTokens familyId := by
  obtain ⟨hs, he⟩ : s.Steady h ∧ s.Exchanged h :=
    hreachable.invariant (I := fun s => s.Steady h ∧ s.Exchanged h)
      (fun _ hinit => ⟨steady_of_init hinit, exchanged_of_init hinit⟩)
      fun _ _ _ hu _ hstep => ⟨hu.1.act hstep, hu.2.act hu.1 hstep⟩
  refine ⟨hs.families.chain, fun x hx hlive => ?_, he.once, fun i raw now new s' hi hstep =>
    ⟨refresh_refused hi hstep, fun rt => refresh_reused hi hstep⟩, fun i s' hstep =>
      ⟨tables_of_fail (h := h) hstep, fun raw now new rt hi => usable_of_fail hs.sound hi hstep⟩,
    fun i rt s₁ s₂ r families rows hi hrun hstep hdone => ?_⟩
  · have hchain := hs.families.chain x.familyId
    obtain ⟨earlier, heq⟩ := hchain.eq_concat (mem_family.mpr ⟨hx, rfl⟩) (by rw [hlive]; simp)
    rw [heq] at hchain
    exact ⟨earlier, heq, hchain.rotated⟩
  · obtain ⟨hended, hothers⟩ := reuse_ends hs hi hrun hstep hdone
    exact ⟨hended.2, hothers⟩

/-- One token is presented twice at once: the second call waits for the first, and ends the
family. -/
theorem refreshed_once_two :
    ∃ s, (system .plain).Reachable s ∧
      s.tasks[0]? = some (.done (.refreshed "t0" 11)) ∧
      (∀ (j : ℕ) new, s.tasks[j]? = some (AuthTask.done (.refreshed "t0" new)) → j = 0) ∧
      (∃ x ∈ s.tables.refreshTokens, x.familyId = 100) ∧
      TokenChain (family s.tables.refreshTokens 100) := by
  have hrun : ((system .plain).run ⟨⟨[], [], []⟩, []⟩
      [.register 1 "a" "p" ⟨10, "t0"⟩ 100 0, .start (.refresh "t0" 1 ⟨11, "t1"⟩),
        .start (.refresh "t0" 1 ⟨12, "t2"⟩), .step 0, .step 0, .step 1, .step 1, .step 1,
        .step 1]).any (fun s =>
      decide (s.tasks[0]? = some (.done (.refreshed "t0" 11))) &&
      s.tables.refreshTokens.any fun t => decide (t.familyId = 100)) = true := by
    decide +kernel
  obtain ⟨s, hreachable, htest⟩ := TransitionSystem.exists_of_run hrun rfl
  obtain ⟨hdone, hany⟩ := (Bool.and_eq_true _ _).mp htest
  obtain ⟨t, ht, hfamily⟩ := List.any_eq_true.mp hany
  obtain ⟨hchain, -, honce, -⟩ := refreshed_once hreachable
  exact ⟨s, hreachable, of_decide_eq_true hdone, fun j new hj =>
    (honce 0 j "t0" 11 new (of_decide_eq_true hdone) hj).symm,
    ⟨t, ht, of_decide_eq_true hfamily⟩, hchain 100⟩

end AuthService

end Hibari
