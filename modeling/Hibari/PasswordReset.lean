import Hibari.Revocations

/-!
# A password that is reset locks everybody else out

A reset writes the new password and revokes all refresh tokens of the user in one
transaction. `Login` reads the user, compares the password, and adds a token only then, and
nothing asks again whether the password is still the user's. So a session may start with a
password that was reset meanwhile (`old_password_stays`), and one whose token comes after the
`UPDATE` of the reset has begun is not found by it.

Where no session starts like that, and the reset finds no token exchanged since its `UPDATE`
began, every good token is of a session that was started with its user's current password
(`AuthService.Owned`), so a reset locks out everybody else (`reset_locks_out`).
-/

namespace Hibari

open List RefreshToken TransitionSystem

/-- **A reset and a login are on time**: the `UPDATE` of a reset finds no token exchanged, and
when it commits it knows all sessions of the user; a password that was compared is still the
user's when the session starts. -/
def AuthTask.OnTime (d : AuthTables) : AuthTask → Prop
  | revoking (.reset _ _ _ _) _ (k :: _) _ =>
    ∀ t ∈ d.refreshTokens, t.id = k → t.revoked ≠ some .rotated
  | revoking (.reset token _ _ _) families [] _ =>
    ∀ t ∈ d.refreshTokens, t.userId = token.userId → t.familyId ∈ families
  | comparing _ _ _ _ user => ∀ u ∈ d.users, u.id = user.id → u.resets = user.resets
  | _ => True

instance (d : AuthTables) (t : AuthTask) : Decidable (t.OnTime d) :=
  match t with
  | .revoking (.reset _ _ _ _) _ (_ :: _) _ =>
    inferInstanceAs (Decidable (∀ t ∈ d.refreshTokens, _ → _ ≠ _))
  | .revoking (.reset _ _ _ _) _ [] _ =>
    inferInstanceAs (Decidable (∀ t ∈ d.refreshTokens, _ → _ ∈ _))
  | .comparing .. => inferInstanceAs (Decidable (∀ u ∈ d.users, _ → _ = _))
  | .revoking (.logout _) .. | .revoking (.session ..) .. | .revoking (.others ..) ..
  | .revoking (.reuse _) .. | .refresh .. | .rotating .. | .logout _ | .revoke _ | .login ..
  | .requestEmailVerification .. | .requestPasswordReset .. | .issue _ | .issuing .. | .verifyEmail ..
  | .verifying _ | .marking _ | .resetPassword .. | .resetting .. | .clear .. | .clearing ..
  | .done _ => isTrue trivial

/-- **Whose a token is**: of a user, whose password has been reset since the session started
at most; not at all, where the token is good. -/
def AuthTables.Owned (d : AuthTables) : Prop :=
  ∀ t ∈ d.refreshTokens, ∃ u ∈ d.users, u.id = t.userId ∧ t.resets ≤ u.resets ∧
    (t.revoked = none → t.resets = u.resets)

/-- Users stay, and their passwords are only reset. -/
structure UsersKept (d d' : AuthTables) : Prop where
  ids : (d.users.map AuthUser.id).Nodup → (d'.users.map AuthUser.id).Nodup
  resets : ∀ u ∈ d.users, ∃ u' ∈ d'.users, u'.id = u.id ∧ u.resets ≤ u'.resets

namespace AuthTables

variable {d d' : AuthTables} {t : RefreshToken} {token : OneTimeToken}
  {g : AuthUser → AuthUser} {hash : String}

theorem usersKept_of_eq (husers : d'.users = d.users) : UsersKept d d' where
  ids hd := husers ▸ hd
  resets u hu := ⟨u, husers ▸ hu, rfl, le_rfl⟩

theorem usersKept_map (hid : ∀ u, (g u).id = u.id)
    (hresets : ∀ u, u.resets ≤ (g u).resets) (husers : d'.users = d.users.map g) :
    UsersKept d d' where
  ids hd := by
    rw [husers, map_map]
    exact (map_congr_left fun u _ => hid u).symm ▸ hd
  resets u hu := ⟨g u, husers ▸ mem_map_of_mem hu, hid u, hresets u⟩

variable (ho : d.Owned)
include ho

/-- Tokens are written, and users are not. -/
theorem Owned.revokedIn {ids : List Ulid} {reason : RevokedReason}
    (hrefresh : d'.refreshTokens = d.refreshTokens.map (RefreshToken.revokedIn ids reason))
    (husers : d'.users = d.users) : d'.Owned := by
  intro t ht
  rw [hrefresh] at ht
  obtain ⟨x, hx, rfl⟩ := mem_map.mp ht
  obtain ⟨u, hu, hid, hle, hlive⟩ := ho x hx
  refine ⟨u, husers ▸ hu, ?_, ?_, fun hnone => ?_⟩
  · rw [revokedIn_userId]
    exact hid
  · rw [revokedIn_resets]
    exact hle
  · rw [revokedIn_resets]
    exact hlive (of_revokedIn_none hnone).1

/-- A token is added, of a session that was started with the password that its user has. -/
theorem Owned.concat (hrefresh : d'.refreshTokens = d.refreshTokens ++ [t])
    (husers : d'.users = d.users) {u : AuthUser} (hu : u ∈ d.users) (hid : u.id = t.userId)
    (hresets : t.resets = u.resets) : d'.Owned := by
  intro x hx
  rw [hrefresh] at hx
  rw [husers]
  rcases mem_append.mp hx with hx | hx
  · exact ho x hx
  · rw [mem_singleton.mp hx]
    exact ⟨u, hu, hid, hresets.le, fun _ => hresets⟩

/-- Users are written, but for their passwords. -/
theorem Owned.users (hg : ∀ u, (g u).id = u.id ∧ (g u).resets = u.resets)
    (hrefresh : d'.refreshTokens = d.refreshTokens) (husers : d'.users = d.users.map g) :
    d'.Owned := by
  intro t ht
  rw [hrefresh] at ht
  obtain ⟨u, hu, hid, hle, hlive⟩ := ho t ht
  obtain ⟨hgid, hgresets⟩ := hg u
  refine ⟨g u, husers ▸ mem_map_of_mem hu, hgid.trans hid, ?_, fun hnone => ?_⟩
  · rw [hgresets]
    exact hle
  · rw [hgresets]
    exact hlive hnone

/-- **A password is reset**, and no token of the user is good any more. -/
theorem Owned.reset {seen deletes got : List Ulid}
    (hdead : ∀ t ∈ (d.revoke (.reset token hash seen deletes) got).refreshTokens,
      t.userId = token.userId → t.revoked ≠ none) :
    (d.revoke (.reset token hash seen deletes) got).Owned := by
  intro t ht
  have hwritten := ht
  rw [revoke_refreshTokens] at ht
  obtain ⟨x, hx, rfl⟩ := mem_map.mp ht
  obtain ⟨u, hu, hid, hle, hlive⟩ := ho x hx
  refine ⟨_, mem_map_of_mem hu, ?_, ?_, fun hnone => ?_⟩
  · rw [revokedIn_userId]
    split <;> exact hid
  · rw [revokedIn_resets]
    split
    · exact hle.trans (Nat.le_succ _)
    · exact hle
  · rw [revokedIn_resets]
    split
    · next heq =>
      refine absurd hnone (hdead _ hwritten ?_)
      rw [revokedIn_userId, ← hid]
      exact heq
    · exact hlive (of_revokedIn_none hnone).1

omit ho

theorem usersKept_createUser {id : Ulid} {email : String}
    (hcreate : d.createUser id email hash = some d') : UsersKept d d' := by
  obtain ⟨rfl, hfresh⟩ := createUser_eq_some hcreate
  refine ⟨fun hd => nodup_concat hd hfresh, fun u hu => ?_⟩
  exact ⟨u, mem_append_left _ hu, rfl, le_rfl⟩

end AuthTables

open AuthTables

namespace AuthService

variable {h : AuthHashes} {s s' : AuthService} {a : AuthAction} {i : ℕ} {t t' : AuthTask}
  {r : Revocation} {families got : List Ulid}

/-- **Users stay.** -/
theorem usersKept_act (hact : act h s a = some s') : UsersKept s.tables s'.tables := by
  rcases act_cases hact with hc | ⟨call, -, rfl⟩ | ⟨j, u, u', -, -, -, rfl, -⟩
  · cases hc with
    | rotate _ hd =>
      obtain ⟨rfl, -⟩ := rotate_eq_some hd
      exact usersKept_of_eq rfl
    | @revoke k r families got hk =>
      cases r with
      | reset =>
        refine usersKept_map (fun u => ?_) (fun u => ?_) rfl
        · split <;> rfl
        · split
          · exact Nat.le_succ _
          · exact le_rfl
      | _ => exact usersKept_of_eq rfl
    | logIn _ hd =>
      obtain ⟨rfl, -, -⟩ := createSession_eq_some hd
      exact usersKept_of_eq rfl
    | issue _ hd =>
      obtain ⟨rfl, -⟩ := issue_eq_some hd
      exact usersKept_of_eq rfl
    | register hd hsession =>
      have hkept := usersKept_createUser hd
      obtain ⟨rfl, -, -⟩ := createSession_eq_some hsession
      exact ⟨hkept.ids, hkept.resets⟩
    | _ =>
      refine usersKept_map (fun u => ?_) (fun u => ?_) rfl
      · split <;> rfl
      · split <;> exact le_rfl
  · exact usersKept_of_eq rfl
  · exact usersKept_of_eq rfl

theorem Turn.of_revoking {todo : List Ulid} (hturn : Turn h s t (.revoking r families todo got)) :
    t = .revoke r ∨ ∃ todo' got', t = .revoking r families todo' got' := by
  generalize ht' : AuthTask.revoking r families todo got = t' at hturn
  cases hturn with
  | @refresh raw now new rt hrt hfree =>
    unfold refreshed at ht'
    split at ht'
    · cases ht'
    · cases ht'
    · split at ht' <;> cases ht'
  | revoke =>
    obtain ⟨rfl, -⟩ := AuthTask.revoking.inj ht'
    exact .inl rfl
  | @revoking r' families' todo' got' k hfree =>
    obtain ⟨rfl, rfl, -⟩ := AuthTask.revoking.inj ht'
    exact .inr ⟨_, _, rfl⟩
  | _ => cases ht'

/-- A password is reset in time. -/
def SafeReset (s : AuthService) : AuthAction → Prop
  | .step i => ∀ t ∈ s.tasks[i]?, t.OnTime s.tables
  | _ => True

instance (s : AuthService) (a : AuthAction) : Decidable (SafeReset s a) :=
  match a with
  | .step i => inferInstanceAs (Decidable (∀ t ∈ s.tasks[i]?, t.OnTime s.tables))
  | .start _ | .fail _ | .register .. | .leave _ => isTrue trivial

/-- **Every good token is of a session that was started with its user's password.** -/
structure PasswordsKept (h : AuthHashes) (s : AuthService) : Prop where
  steady : s.Steady h
  users : (s.tables.users.map AuthUser.id).Nodup
  owned : s.tables.Owned
  read : ∀ (i : ℕ) password new familyId now user,
    s.tasks[i]? = some (AuthTask.comparing password new familyId now user) →
      ∃ u ∈ s.tables.users, u.id = user.id
  covered : ∀ (i : ℕ) token hash seen deletes families todo got, s.tasks[i]? =
      some (AuthTask.revoking (.reset token hash seen deletes) families todo got) →
    AuthTask.Covered s.tables.refreshTokens
      (.revoking (.reset token hash seen deletes) families todo got)

/-- A revocation that covers what it found ends all good tokens, where it knows all their
families. -/
theorem dead_of_covered {userId : Ulid}
    {l : List RefreshToken} (hcov : AuthTask.Covered l (.revoking r families [] got))
    (hall : ∀ t ∈ l, t.userId = userId → t.familyId ∈ families) :
    ∀ t ∈ l.map (RefreshToken.revokedIn got r.reason), t.userId = userId → t.revoked ≠ none := by
  intro t ht huser hlive
  obtain ⟨haims, hcovers | ⟨x, -, hmem, -⟩⟩ := hcov
  · obtain ⟨x, hx, rfl⟩ := mem_map.mp ht
    rw [revokedIn_userId] at huser
    have hended := ended_revoke (r := r) haims hcovers _ (hall x hx huser)
    exact hended.2 _ ht x.revokedIn_familyId hlive
  · exact not_mem_nil hmem

theorem PasswordsKept.ownedOf (hs : s.PasswordsKept h) (hsafe : SafeReset s a)
    (hact : act h s a = some s') : s'.tables.Owned := by
  rcases act_cases hact with hc | ⟨call, -, rfl⟩ | ⟨j, u, u', -, -, -, rfl, -⟩
  · cases hc with
    | @rotate k raw now new rt d hk hd =>
      obtain ⟨hrt, hlive, -⟩ := hs.steady.sound.fits _ (mem_of_getElem? hk)
      obtain ⟨u, hu, hid, -, hresets⟩ := hs.owned rt hrt
      have hmarked : (s.tables.markRefreshTokenRotated rt.id).Owned := hs.owned.revokedIn rfl rfl
      obtain ⟨rfl, -⟩ := rotate_eq_some hd
      exact hmarked.concat rfl rfl hu hid (hresets hlive)
    | @revoke k r families got hk =>
      cases r with
      | reset =>
        refine hs.owned.reset ?_
        rw [revoke_refreshTokens]
        exact dead_of_covered (hs.covered k _ _ _ _ _ _ _ hk) (hsafe _ hk)
      | _ => exact hs.owned.revokedIn revoke_refreshTokens rfl
    | @logIn k password new familyId now user d hk hd =>
      obtain ⟨u, hu, hid⟩ := hs.read k _ _ _ _ _ hk
      obtain ⟨rfl, -, -⟩ := createSession_eq_some hd
      exact hs.owned.concat rfl rfl hu hid (hsafe _ hk u hu hid).symm
    | issue _ hd =>
      obtain ⟨rfl, -⟩ := issue_eq_some hd
      exact hs.owned
    | @register id email hash new familyId now d d' hd hsession =>
      have howned : d.Owned := by
        obtain ⟨rfl, -⟩ := createUser_eq_some hd
        intro t ht
        obtain ⟨u, hu, hrest⟩ := hs.owned t ht
        exact ⟨u, mem_append_left _ hu, hrest⟩
      have huser : ∃ u ∈ d.users, u.id = id ∧ u.resets = 0 := by
        obtain ⟨rfl, -⟩ := createUser_eq_some hd
        exact ⟨_, mem_append_right _ (.head _), rfl, rfl⟩
      obtain ⟨u, hu, hid, hresets⟩ := huser
      obtain ⟨rfl, -, -⟩ := createSession_eq_some hsession
      exact howned.concat rfl rfl hu hid hresets.symm
    | _ =>
      refine hs.owned.users (fun u => ?_) rfl rfl
      split <;> exact ⟨rfl, rfl⟩
  · exact hs.owned
  · exact hs.owned

/-- A user whose password is compared was read from the table. -/
theorem Turn.of_comparing {password : String} {new : OpaqueToken} {familyId : Ulid} {now : ℕ}
    {user : AuthUser} (hturn : Turn h s t (.comparing password new familyId now user)) :
    user ∈ s.tables.users := by
  generalize ht' : AuthTask.comparing password new familyId now user = t' at hturn
  cases hturn with
  | @refresh raw now new rt hrt hfree =>
    unfold refreshed at ht'
    split at ht'
    · cases ht'
    · cases ht'
    · split at ht' <;> cases ht'
  | login huser =>
    obtain ⟨-, -, -, -, rfl⟩ := AuthTask.comparing.inj ht'
    exact mem_of_find?_eq_some huser
  | _ => cases ht'

theorem begins_ne (call : AuthCall) :
    (∀ r families todo got, call.begins h ≠ .revoking r families todo got) ∧
      ∀ password new familyId now user, call.begins h ≠ .comparing password new familyId now user := by
  refine AuthCall.begins_of (P := fun t => (∀ r families todo got, t ≠ .revoking r families todo got) ∧
    ∀ password new familyId now user, t ≠ .comparing password new familyId now user) (by simp) ?_
  cases call <;> simp [AuthCall.task]

theorem PasswordsKept.act (hs : s.PasswordsKept h) (hsafe : SafeReset s a)
    (hact : act h s a = some s') : s'.PasswordsKept h where
  steady := hs.steady.act hact
  users := (usersKept_act hact).ids hs.users
  owned := hs.ownedOf hsafe hact
  read i password new familyId now user hi' := by
    have hkept : (∃ u ∈ s.tables.users, u.id = user.id) →
        ∃ u ∈ s'.tables.users, u.id = user.id := by
      rintro ⟨u, hu, hid⟩
      obtain ⟨u', hu', hid', -⟩ := (usersKept_act hact).resets u hu
      exact ⟨u', hu', hid'.trans hid⟩
    rcases task_cases hact hi' with hi | ⟨call, hbegins⟩ | ⟨t, -, result, hdone⟩ | ⟨t, -, hturn⟩
    · exact hkept (hs.read i _ _ _ _ _ hi)
    · exact absurd hbegins.symm ((begins_ne call).2 _ _ _ _ _)
    · cases hdone
    · exact hkept ⟨user, hturn.of_comparing, rfl⟩
  covered i token hash seen deletes families todo got hi' := by
    have hcov : ∀ {t : AuthTask}, s.tasks[i]? = some t → t.Covered s.tables.refreshTokens →
        (∀ k todo' got', t = .revoking (.reset token hash seen deletes) families (k :: todo') got' →
          a = .step i → t.Unrotated s.tables.refreshTokens) →
        (t = .revoke (.reset token hash seen deletes) ∨ ∃ todo' got',
          t = .revoking (.reset token hash seen deletes) families todo' got') →
        AuthTask.Covered s'.tables.refreshTokens
          (.revoking (.reset token hash seen deletes) families todo got) := by
      intro t hi hcov hunrotated hkind
      refine covered_act hs.steady hact hi hi' hcov fun ha => ?_
      rcases hkind with rfl | ⟨todo', got', rfl⟩
      · trivial
      · cases todo' with
        | nil => trivial
        | cons k todo' => exact hunrotated k todo' got' rfl ha
    have hmine : ∀ {todo' got' : List Ulid}, s.tasks[i]? =
          some (AuthTask.revoking (.reset token hash seen deletes) families todo' got') →
        AuthTask.Covered s'.tables.refreshTokens
          (.revoking (.reset token hash seen deletes) families todo got) := by
      intro todo' got' hi
      refine hcov hi (hs.covered i _ _ _ _ _ _ _ hi) (fun k todo'' got'' heq ha => ?_)
        (.inr ⟨_, _, rfl⟩)
      rw [ha] at hsafe
      have hontime := hsafe _ hi
      rw [heq] at hontime ⊢
      exact hontime
    rcases task_cases hact hi' with hi | ⟨call, hbegins⟩ | ⟨t, -, result, hdone⟩ | ⟨t, hi, hturn⟩
    · exact hmine hi
    · exact absurd hbegins.symm ((begins_ne call).1 _ _ _ _)
    · cases hdone
    · rcases hturn.of_revoking with rfl | ⟨todo', got', rfl⟩
      · exact hcov hi trivial nofun (.inl rfl)
      · exact hmine hi

theorem passwordsKept_of_init (hinit : (system h).init s) : s.PasswordsKept h := by
  have hsteady := steady_of_init hinit
  rw [show s = ⟨⟨[], [], []⟩, []⟩ from hinit] at hsteady ⊢
  exact ⟨hsteady, nodup_nil, fun t ht => absurd ht not_mem_nil,
    fun i _ _ _ _ _ hi => (nomatch hi), nofun⟩

/-- **A password that is reset locks everybody else out**, where resets and logins are on time.
When a reset commits, from then on each good token of the user is of a session that was not
there before, and that was started with a password that was set by this reset or later. -/
theorem reset_locks_out {s₀ s₁ : AuthService} {token : OneTimeToken} {hash : String}
    {seen deletes families got : List Ulid} (hreachable : (system h).ReachableBy SafeReset s₀)
    (hi : s₀.tasks[i]? = some (.revoking (.reset token hash seen deletes) families [] got))
    (hsafe : SafeReset s₀ (.step i)) (hcommit : (system h).step s₀ (.step i) = some s₁)
    (hrun : (system h).Steps SafeReset s₁ s) :
    ∀ t ∈ s.tables.refreshTokens, t.userId = token.userId → t.revoked = none →
      (∀ t₀ ∈ s₀.tables.refreshTokens, t₀.familyId ≠ t.familyId) ∧
      ∀ u ∈ s₀.tables.users, u.id = token.userId → u.resets < t.resets := by
  have hs₀ : s₀.PasswordsKept h := hreachable.invariant (fun _ hinit => passwordsKept_of_init hinit)
    fun _ _ _ hs hsafe hstep => hs.act hsafe hstep
  have hact : act h s₀ (.step i) = some s₁ := hcommit
  have hs₁ : s₁.PasswordsKept h := hs₀.act hsafe hact
  have hpassword : ∀ u ∈ s₀.tables.users, u.id = token.userId →
      ∃ u' ∈ s₁.tables.users, u'.id = u.id ∧ u.resets < u'.resets := by
    intro u hu hid
    simp only [AuthService.act, hi, Option.bind_some, next] at hact
    cases hact
    refine ⟨_, mem_map_of_mem hu, ?_⟩
    rw [if_pos hid]
    exact ⟨rfl, Nat.lt_succ_self _⟩
  obtain ⟨hs, hkept, hlater⟩ : s.PasswordsKept h ∧
      Kept s₀.tables.refreshTokens s.tables.refreshTokens ∧ ∀ u ∈ s₀.tables.users,
        u.id = token.userId → ∃ u' ∈ s.tables.users, u'.id = u.id ∧ u.resets < u'.resets := by
    refine hrun.preserves (I := fun v => v.PasswordsKept h ∧
      Kept s₀.tables.refreshTokens v.tables.refreshTokens ∧ ∀ u ∈ s₀.tables.users,
        u.id = token.userId → ∃ u' ∈ v.tables.users, u'.id = u.id ∧ u.resets < u'.resets)
      (fun v a v' hv hsafe hact => ?_) ⟨hs₁, ?_, hpassword⟩
    · obtain ⟨hv, hkept, hlater⟩ := hv
      refine ⟨hv.act hsafe hact, hkept.move (act_move hv.steady.sound hact)
        hv.steady.sound.keyed.ids, fun u hu hid => ?_⟩
      obtain ⟨u', hu', hid', hlt⟩ := hlater u hu hid
      obtain ⟨u'', hu'', hid'', hle⟩ := (usersKept_act hact).resets u' hu'
      exact ⟨u'', hu'', hid''.trans hid', hlt.trans_le hle⟩
    · have hself : Kept s₀.tables.refreshTokens s₀.tables.refreshTokens :=
        fun t₀ ht₀ => ⟨t₀, ht₀, ⟨rfl, rfl, rfl, rfl, rfl⟩⟩
      exact hself.move (act_move hs₀.steady.sound hact) hs₀.steady.sound.keyed.ids
  intro t ht huser hlive
  have hnew : ∀ u ∈ s₀.tables.users, u.id = token.userId → u.resets < t.resets := by
    intro u hu hid
    obtain ⟨u', hu', hid', hlt⟩ := hlater u hu hid
    obtain ⟨w, hw, hwid, -, hresets⟩ := hs.owned t ht
    rw [hresets hlive, inj_on_of_nodup_map hs.users hw hu'
      (hwid.trans (huser.trans (hid.symm.trans hid'.symm)))]
    exact hlt
  refine ⟨fun t₀ ht₀ hfamily => ?_, hnew⟩
  obtain ⟨x, hx, hsame⟩ := hkept t₀ ht₀
  obtain ⟨hxuser, hxresets⟩ := hs.steady.families.user x hx t ht (hsame.familyId.trans hfamily)
  obtain ⟨u, hu, hid, hle, -⟩ := hs₀.owned t₀ ht₀
  have hlt := hnew u hu (hid.trans (hsame.userId.symm.trans (hxuser.trans huser)))
  rw [← hxresets, hsame.resets] at hlt
  omega

/-- A user resets the password and logs in with the new one, and so does somebody with the old
one. -/
theorem reset_locks_out_login :
    ∃ s₀ s, (system .plain).ReachableBy SafeReset s₀ ∧ (system .plain).Steps SafeReset s₀ s ∧
      (∃ t ∈ s₀.tables.refreshTokens, t.userId = 1 ∧ t.revoked = none) ∧
      (∃ t ∈ s.tables.refreshTokens, t.userId = 1 ∧ t.revoked = none) ∧
      ∀ t ∈ s.tables.refreshTokens, t.userId = 1 → t.revoked = none →
        ∀ t₀ ∈ s₀.tables.refreshTokens, t₀.familyId ≠ t.familyId := by
  have hrun : ((system .plain).runBy SafeReset ⟨⟨[], [], []⟩, []⟩
      [.register 1 "a" "p" ⟨10, "t0"⟩ 100 0, .start (.requestPasswordReset "a" ⟨20, "r0"⟩ 1),
        .step 0, .step 0, .step 0, .start (.resetPassword "r0" "q" 2), .step 1, .step 1, .step 1,
        .step 1, .step 1, .step 1]).any (fun s₀ => decide (s₀.tasks[1]? = some (.revoking
          (.reset ⟨20, 1, .passwordReset, "r0", 1 + PasswordResetTTL, false, false⟩ "q" [20] [])
            [100] [] [10])) && decide (SafeReset s₀ (.step 1)) &&
        s₀.tables.refreshTokens.any (fun t => decide (t.userId = 1 ∧ t.revoked = none)) &&
      ((system .plain).step s₀ (.step 1)).any fun s₁ => ((system .plain).runBy SafeReset s₁
        [.start (.login "a" "q" ⟨11, "t1"⟩ 101 3), .start (.login "a" "p" ⟨12, "t2"⟩ 102 3),
          .step 2, .step 3, .step 2, .step 3]).any fun s => s.tables.refreshTokens.any fun t =>
            decide (t.userId = 1 ∧ t.revoked = none)) = true := by
    decide +kernel
  obtain ⟨s₀, hreachable, htest⟩ := exists_of_runBy hrun rfl
  obtain ⟨hfirst, hrest⟩ := (Bool.and_eq_true _ _).mp htest
  obtain ⟨hfirst, hold⟩ := (Bool.and_eq_true _ _).mp hfirst
  obtain ⟨htask, hsafe⟩ := (Bool.and_eq_true _ _).mp hfirst
  obtain ⟨s₁, hs₁, hrest⟩ := (Option.any_eq_true _ _).mp hrest
  obtain ⟨s, hs, hnew⟩ := (Option.any_eq_true _ _).mp hrest
  obtain ⟨t₀, ht₀, hgood₀⟩ := any_eq_true.mp hold
  obtain ⟨t, ht, hgood⟩ := any_eq_true.mp hnew
  have hsteps := steps_of_runBy hs
  have hout := reset_locks_out hreachable (of_decide_eq_true htask) (of_decide_eq_true hsafe) hs₁
    hsteps
  exact ⟨s₀, s, hreachable, (TransitionSystem.Steps.single (of_decide_eq_true hsafe) hs₁).trans
    hsteps, ⟨t₀, ht₀, of_decide_eq_true hgood₀⟩, ⟨t, ht, of_decide_eq_true hgood⟩,
    fun t ht huser hlive => (hout t ht huser hlive).1⟩

/-- **The old password stays.** A login has read the user and compares the password while it is
reset. The reset commits and returns, and then the login starts its session. -/
theorem old_password_stays :
    ∃ s₀ s₁ s token hash seen deletes families got, (system .plain).Reachable s₀ ∧
      s₀.tasks[2]? = some (.revoking (.reset token hash seen deletes) families [] got) ∧
      (system .plain).step s₀ (.step 2) = some s₁ ∧
      (system .plain).Steps (fun _ _ => True) s₁ s ∧
      ∃ t ∈ s.tables.refreshTokens, t.userId = token.userId ∧ t.revoked = none ∧
        ∃ u ∈ s₀.tables.users, u.id = token.userId ∧ t.resets = u.resets := by
  have hrun : ((system .plain).run ⟨⟨[], [], []⟩, []⟩
      [.register 1 "a" "p" ⟨10, "t0"⟩ 100 0, .start (.requestPasswordReset "a" ⟨20, "r0"⟩ 1),
        .step 0, .step 0, .step 0, .start (.login "a" "p" ⟨11, "t1"⟩ 101 2), .step 1,
        .start (.resetPassword "r0" "q" 2), .step 2, .step 2, .step 2, .step 2, .step 2,
        .step 2]).any (fun s₀ => decide (s₀.tasks[2]? = some (.revoking
          (.reset ⟨20, 1, .passwordReset, "r0", 1 + PasswordResetTTL, false, false⟩ "q" [20] [])
            [100] [] [10])) && s₀.tables.users.any (fun u => decide (u.id = 1 ∧ u.resets = 0)) &&
      ((system .plain).step s₀ (.step 2)).any fun s₁ => ((system .plain).run s₁ [.step 1]).any
        fun s => s.tables.refreshTokens.any fun t =>
          decide (t.userId = 1 ∧ t.revoked = none ∧ t.resets = 0)) = true := by
    decide +kernel
  obtain ⟨s₀, hreachable, htest⟩ := exists_of_run hrun rfl
  obtain ⟨hfirst, hrest⟩ := (Bool.and_eq_true _ _).mp htest
  obtain ⟨htask, huser⟩ := (Bool.and_eq_true _ _).mp hfirst
  obtain ⟨s₁, hs₁, hrest⟩ := (Option.any_eq_true _ _).mp hrest
  obtain ⟨s, hs, hgood⟩ := (Option.any_eq_true _ _).mp hrest
  obtain ⟨u, hu, hutest⟩ := any_eq_true.mp huser
  obtain ⟨hid, hzero⟩ := of_decide_eq_true hutest
  obtain ⟨t, ht, httest⟩ := any_eq_true.mp hgood
  obtain ⟨htuser, hlive, hresets⟩ := of_decide_eq_true httest
  have hsteps := steps_of_run (P := fun _ _ => True) (fun _ _ _ => trivial) hs
  exact ⟨s₀, s₁, s, _, _, _, _, _, _, hreachable, of_decide_eq_true htask, hs₁, hsteps, t, ht,
    htuser, hlive, u, hu, hid, hresets.trans hzero.symm⟩

end AuthService

end Hibari
