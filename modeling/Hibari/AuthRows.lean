import Hibari.AuthService

/-!
# What a call has locked stays as it was read

A call goes by rows that it has read and locked: the token that it exchanges, the one-time
token that it consumes, the rows that an `UPDATE` has got. No other call writes them before
it ends (`AuthTables.Spares`), so what it has read still holds when it commits
(`AuthService.Sound`).
-/

namespace Hibari

open List OneTimeToken SnapshotUpdate HeldRows RefreshToken

namespace AuthTables

variable {h : AuthHashes} {d d' : AuthTables} {r : Revocation} {rows : List AuthRow}
  {rt t : RefreshToken} {token x : OneTimeToken} {ids got : List Ulid}
  {new : OpaqueToken} {now : ℕ} {t' : RefreshToken}

/-! ## What a commit writes -/

theorem rotate_eq_some (hrotate : d.rotate h rt new now = some d') : d' = { d with
      refreshTokens := d.refreshTokens.map (RefreshToken.revokedIn [rt.id] .rotated) ++
        [startSession h new rt.userId rt.familyId (some rt.id) now rt.resets] } ∧
      ∀ x ∈ d.refreshTokens, x.id ≠ new.id ∧ x.tokenHash ≠ h.hashOpaqueToken new.raw := by
  obtain ⟨rfl, hfresh⟩ := createRefreshToken_eq_some hrotate
  refine ⟨rfl, fun x hx => ?_⟩
  have hmarked := hfresh _ (mem_map_of_mem hx)
  rw [revokedIn_id, revokedIn_tokenHash] at hmarked
  exact hmarked

theorem issue_eq_some (hissue : d.issue token got = some d') :
    d' = { d with oneTimeTokens := d.oneTimeTokens.map (OneTimeToken.deletedIn got) ++ [token] } ∧
      ∀ x ∈ d.oneTimeTokens, x.id ≠ token.id := by
  obtain ⟨rfl, hfresh⟩ := createOneTimeToken_eq_some hissue
  refine ⟨rfl, fun x hx => ?_⟩
  have hkept := hfresh _ (mem_map_of_mem hx)
  rw [deletedIn_id] at hkept
  exact hkept

theorem revoke_refreshTokens :
    (d.revoke r got).refreshTokens = d.refreshTokens.map (RefreshToken.revokedIn got r.reason) := by
  cases r <;> rfl

/-- The one-time tokens of a transaction that revokes: those of a reset are consumed, or
deleted. -/
theorem revoke_oneTimeTokens : (d.revoke r got).oneTimeTokens = match r with
      | .reset token _ _ deletes => (d.oneTimeTokens.map (OneTimeToken.consumedAs token.id)).map
          (OneTimeToken.deletedIn deletes)
      | _ => d.oneTimeTokens := by
  cases r <;> rfl

/-! ## What it leaves -/

/-- **What a commit that has these rows leaves of the tokens**: all those whose row it does
not have. -/
structure Spares (rows : List AuthRow) (d d' : AuthTables) : Prop where
  refreshToken : ∀ t ∈ d.refreshTokens, .refreshToken t.id ∉ rows → t ∈ d'.refreshTokens
  oneTimeToken : ∀ t ∈ d.oneTimeTokens, .oneTimeToken t.id ∉ rows → t ∈ d'.oneTimeTokens

theorem Spares.of_eq (hrefresh : d'.refreshTokens = d.refreshTokens)
    (htokens : d'.oneTimeTokens = d.oneTimeTokens) : Spares rows d d' where
  refreshToken t ht _ := hrefresh ▸ ht
  oneTimeToken t ht _ := htokens ▸ ht

theorem spares_rotate (hrotate : d.rotate h rt new now = some d') :
    Spares [.refreshToken rt.id] d d' where
  refreshToken t ht hrow := by
    obtain ⟨rfl, -⟩ := rotate_eq_some hrotate
    refine mem_append_left _ (mem_map.mpr ⟨t, ht, revokedIn_of_notMem ?_⟩)
    exact fun hmem => hrow (mem_map_of_mem (f := AuthRow.refreshToken) hmem)
  oneTimeToken t ht _ := by
    obtain ⟨rfl, -⟩ := rotate_eq_some hrotate
    exact ht

theorem spares_revoke : Spares (r.held ++ got.map .refreshToken) d (d.revoke r got) where
  refreshToken t ht hrow := by
    rw [revoke_refreshTokens]
    refine mem_map.mpr ⟨t, ht, revokedIn_of_notMem fun hmem => hrow ?_⟩
    exact mem_append_right _ (mem_map_of_mem hmem)
  oneTimeToken t ht hrow := by
    rw [revoke_oneTimeTokens]
    cases r with
    | reset token hash seen deletes =>
      have hheld : AuthRow.oneTimeToken t.id ∉ Revocation.held (.reset token hash seen deletes) :=
        fun hmem => hrow (mem_append_left _ hmem)
      have hne : t.id ≠ token.id := fun heq => hheld (heq ▸ (.head _))
      have hkept : t.id ∉ deletes := fun hmem => hheld (.tail _ (.tail _ (mem_map_of_mem hmem)))
      show t ∈ (d.oneTimeTokens.map _).map _
      rw [map_map]
      refine mem_map.mpr ⟨t, ht, ?_⟩
      show (t.consumedAs token.id).deletedIn deletes = t
      rw [consumedAs_of_ne hne, deletedIn_of_notMem hkept]
    | _ => exact ht

theorem spares_createSession (hsession : d.createSession t = some d') : Spares rows d d' where
  refreshToken x hx _ := by
    obtain ⟨rfl, -, -⟩ := createSession_eq_some hsession
    exact mem_append_left _ hx
  oneTimeToken x hx _ := by
    obtain ⟨rfl, -, -⟩ := createSession_eq_some hsession
    exact hx

theorem spares_issue (hissue : d.issue token got = some d') :
    Spares (got.map .oneTimeToken) d d' where
  refreshToken x hx _ := by
    obtain ⟨rfl, -⟩ := issue_eq_some hissue
    exact hx
  oneTimeToken x hx hrow := by
    obtain ⟨rfl, -⟩ := issue_eq_some hissue
    refine mem_append_left _ (mem_map.mpr ⟨x, hx, deletedIn_of_notMem ?_⟩)
    exact fun hmem => hrow (mem_map_of_mem hmem)

theorem spares_verify : Spares [.oneTimeToken token.id, .user token.userId] d (d.verify token) where
  refreshToken x hx _ := hx
  oneTimeToken x hx hrow := by
    refine mem_map.mpr ⟨x, hx, consumedAs_of_ne fun heq => hrow ?_⟩
    rw [heq]
    exact .head _

/-! ## Names -/

/-- **Names are given once**: the ids of rows, and the hashes of refresh tokens. -/
structure Keyed (d : AuthTables) : Prop where
  ids : (d.refreshTokens.map RefreshToken.id).Nodup
  hashes : (d.refreshTokens.map RefreshToken.tokenHash).Nodup
  tokens : (d.oneTimeTokens.map OneTimeToken.id).Nodup

theorem Keyed.nil : Keyed ⟨[], [], []⟩ := ⟨nodup_nil, nodup_nil, nodup_nil⟩

variable (hd : d.Keyed)
include hd

theorem Keyed.revokeRefreshTokens (ids : List Ulid) (reason : RevokedReason) :
    (d.revokeRefreshTokens ids reason).Keyed := by
  have hid : (d.refreshTokens.map (RefreshToken.revokedIn ids reason)).map RefreshToken.id
      = d.refreshTokens.map RefreshToken.id := by
    rw [map_map]
    exact map_congr_left fun t _ => t.revokedIn_id
  have hhash : (d.refreshTokens.map (RefreshToken.revokedIn ids reason)).map RefreshToken.tokenHash
      = d.refreshTokens.map RefreshToken.tokenHash := by
    rw [map_map]
    exact map_congr_left fun t _ => t.revokedIn_tokenHash
  exact ⟨hid ▸ hd.ids, hhash ▸ hd.hashes, hd.tokens⟩

theorem Keyed.consumeOneTimeToken (id : Ulid) : (d.consumeOneTimeToken id).Keyed := by
  have hid : (d.oneTimeTokens.map (OneTimeToken.consumedAs id)).map OneTimeToken.id
      = d.oneTimeTokens.map OneTimeToken.id := by
    rw [map_map]
    exact map_congr_left fun t _ => t.consumedAs_id
  exact ⟨hd.ids, hd.hashes, hid ▸ hd.tokens⟩

theorem Keyed.deleteOneTimeTokens (ids : List Ulid) : (d.deleteOneTimeTokens ids).Keyed := by
  have hid : (d.oneTimeTokens.map (OneTimeToken.deletedIn ids)).map OneTimeToken.id
      = d.oneTimeTokens.map OneTimeToken.id := by
    rw [map_map]
    exact map_congr_left fun t _ => t.deletedIn_id
  exact ⟨hd.ids, hd.hashes, hid ▸ hd.tokens⟩

theorem Keyed.updateUser (id : Ulid) (f : AuthUser → AuthUser) :
    (d.updateUser id f).Keyed := ⟨hd.ids, hd.hashes, hd.tokens⟩

omit hd

theorem nodup_concat {α β : Type*} {f : α → β} {l : List α} {y : α} (hl : (l.map f).Nodup)
    (hy : ∀ x ∈ l, f x ≠ f y) : ((l ++ [y]).map f).Nodup := by
  rw [map_append, map_singleton]
  refine nodup_append.mpr ⟨hl, nodup_singleton _, fun a ha b hb => ?_⟩
  obtain ⟨x, hx, rfl⟩ := mem_map.mp ha
  rw [mem_singleton.mp hb]
  exact hy x hx

include hd

theorem keyed_createRefreshToken (hcreate : d.createRefreshToken t = some d') :
    d'.Keyed := by
  obtain ⟨rfl, hfresh⟩ := createRefreshToken_eq_some hcreate
  exact ⟨nodup_concat hd.ids fun x hx => (hfresh x hx).1,
    nodup_concat hd.hashes fun x hx => (hfresh x hx).2, hd.tokens⟩

theorem keyed_createSession (hcreate : d.createSession t = some d') : d'.Keyed := by
  obtain ⟨rfl, hfresh, -⟩ := createSession_eq_some hcreate
  exact ⟨nodup_concat hd.ids fun x hx => (hfresh x hx).1,
    nodup_concat hd.hashes fun x hx => (hfresh x hx).2, hd.tokens⟩

theorem keyed_createOneTimeToken (hcreate : d.createOneTimeToken token = some d') :
    d'.Keyed := by
  obtain ⟨rfl, hfresh⟩ := createOneTimeToken_eq_some hcreate
  exact ⟨hd.ids, hd.hashes, nodup_concat hd.tokens hfresh⟩

theorem Keyed.eq_of_id (ht : t ∈ d.refreshTokens)
    (ht' : t' ∈ d.refreshTokens) (hid : t.id = t'.id) : t = t' :=
  inj_on_of_nodup_map hd.ids ht ht' hid

theorem Keyed.eq_of_hash (ht : t ∈ d.refreshTokens)
    (ht' : t' ∈ d.refreshTokens) (hhash : t.tokenHash = t'.tokenHash) : t = t' :=
  inj_on_of_nodup_map hd.hashes ht ht' hhash

end AuthTables

open AuthTables

/-! ## What a call has read -/

/-- A one-time token that a call has consumed, which others see as it was. -/
structure OneTimeToken.Open (d : AuthTables) (purpose : TokenPurpose) (token : OneTimeToken) :
    Prop where
  mem : token ∈ d.oneTimeTokens
  live : token.live = true
  purpose : token.purpose = purpose

/-- What a transaction has read before it revokes. -/
def Revocation.Fits (d : AuthTables) : Revocation → Prop
  | reuse rt => rt ∈ d.refreshTokens ∧ rt.revoked = some .rotated
  | reset token _ _ deletes => token.Open d .passwordReset ∧
      SnapshotUpdate.Holds OneTimeToken.id token.voids d.oneTimeTokens deletes
  | _ => True

/-- **What a call has read**, and still holds. -/
def AuthTask.Fits (h : AuthHashes) (d : AuthTables) : AuthTask → Prop
  | rotating raw _ _ rt => rt ∈ d.refreshTokens ∧ rt.revoked = none ∧
      rt.tokenHash = h.hashOpaqueToken raw
  | revoke r => r.Fits d
  | revoking r _ _ got => r.Fits d ∧ SnapshotUpdate.Holds RefreshToken.id r.hit d.refreshTokens got
  | issuing token _ _ got =>
      SnapshotUpdate.Holds OneTimeToken.id token.replaces d.oneTimeTokens got
  | verifying token | marking token => token.Open d .emailVerify
  | resetting token _ | clear token _ => token.Open d .passwordReset
  | clearing token _ _ _ got => token.Open d .passwordReset ∧
      SnapshotUpdate.Holds OneTimeToken.id token.voids d.oneTimeTokens got
  | _ => True

section Spared

variable {h : AuthHashes} {d d' : AuthTables} {rows : List AuthRow}

theorem OneTimeToken.Open.spares {purpose : TokenPurpose} {token : OneTimeToken}
    (hopen : token.Open d purpose) (hs : d.Spares rows d') (hrow : .oneTimeToken token.id ∉ rows) :
    token.Open d' purpose :=
  ⟨hs.oneTimeToken token hopen.mem hrow, hopen.live, hopen.purpose⟩

theorem holds_refreshTokens {hit : RefreshToken → Bool} {got : List Ulid}
    (hholds : SnapshotUpdate.Holds RefreshToken.id hit d.refreshTokens got) (hs : d.Spares rows d')
    (hrows : ∀ r ∈ got.map AuthRow.refreshToken, r ∉ rows) :
    SnapshotUpdate.Holds RefreshToken.id hit d'.refreshTokens got := by
  intro k hk
  obtain ⟨t, ht, rfl, hhit⟩ := hholds k hk
  exact ⟨t, hs.refreshToken t ht (hrows _ (mem_map_of_mem hk)), rfl, hhit⟩

theorem holds_oneTimeTokens {hit : OneTimeToken → Bool} {got : List Ulid}
    (hholds : SnapshotUpdate.Holds OneTimeToken.id hit d.oneTimeTokens got) (hs : d.Spares rows d')
    (hrows : ∀ r ∈ got.map AuthRow.oneTimeToken, r ∉ rows) :
    SnapshotUpdate.Holds OneTimeToken.id hit d'.oneTimeTokens got := by
  intro k hk
  obtain ⟨t, ht, rfl, hhit⟩ := hholds k hk
  exact ⟨t, hs.oneTimeToken t ht (hrows _ (mem_map_of_mem hk)), rfl, hhit⟩

theorem Revocation.Fits.spares {r : Revocation} (hfits : r.Fits d) (hs : d.Spares rows d')
    (hrows : ∀ x ∈ r.held, x ∉ rows) : r.Fits d' := by
  cases r with
  | reuse rt =>
    exact ⟨hs.refreshToken rt hfits.1 (hrows _ (.head _)), hfits.2⟩
  | reset =>
    refine ⟨hfits.1.spares hs (hrows _ (.head _)), holds_oneTimeTokens hfits.2 hs ?_⟩
    exact fun x hx => hrows x (.tail _ (.tail _ hx))
  | _ => trivial

/-- **Others leave what a call has read**, as long as they do not have its rows. -/
theorem AuthTask.Fits.spares {t : AuthTask} (hfits : t.Fits h d) (hs : d.Spares rows d')
    (hrows : ∀ r ∈ t.held, r ∉ rows) : t.Fits h d' := by
  cases t with
  | rotating _ _ _ rt =>
    exact ⟨hs.refreshToken rt hfits.1 (hrows _ (.head _)), hfits.2⟩
  | revoke => exact Revocation.Fits.spares hfits hs hrows
  | revoking =>
    refine ⟨hfits.1.spares hs fun x hx => hrows x (mem_append_left _ hx), ?_⟩
    exact holds_refreshTokens hfits.2 hs fun x hx => hrows x (mem_append_right _ hx)
  | issuing => exact holds_oneTimeTokens hfits hs hrows
  | verifying | marking | resetting | clear =>
    exact OneTimeToken.Open.spares hfits hs (hrows _ (.head _))
  | clearing =>
    refine ⟨hfits.1.spares hs (hrows _ (.head _)), holds_oneTimeTokens hfits.2 hs ?_⟩
    exact fun x hx => hrows x (.tail _ (.tail _ hx))
  | _ => trivial

end Spared

namespace AuthService

variable {h : AuthHashes} {s s' : AuthService} {a : AuthAction} {i : ℕ} {t t' : AuthTask}
  {tokenHash : String}

/-- A row that is taken was free. -/
theorem Turn.rows (hturn : Turn h s t t') : ∀ r ∈ t'.held, r ∈ t.held ∨ s.FreeRow r := by
  intro r hr
  have htaken : ∀ {row : Ulid → AuthRow} {ids : List Ulid} {k : Ulid} {got : List Ulid},
      s.FreeRow (row k) → (∀ x ∈ ids, x ∈ got ∨ x = k) → r ∈ ids.map row →
      r ∈ got.map row ∨ s.FreeRow r := by
    intro row ids k got hfree hids hmem
    obtain ⟨x, hx, rfl⟩ := mem_map.mp hmem
    rcases hids x hx with hgot | rfl
    · exact .inl (mem_map_of_mem hgot)
    · exact .inr hfree
  cases hturn with
  | @refresh raw now new rt hrt hfree =>
    unfold refreshed at hr
    split at hr
    · rw [mem_singleton.mp hr]
      exact .inr hfree
    · cases hr
    · split at hr
      · rw [mem_singleton.mp hr]
        exact .inr hfree
      · cases hr
  | revoke => exact .inl (by simpa [AuthTask.held] using hr)
  | revoking hfree =>
    rcases mem_append.mp hr with hr | hr
    · exact .inl (mem_append_left _ hr)
    · rcases htaken hfree (fun x hx => mem_take hx) hr with hgot | hfree
      · exact .inl (mem_append_right _ hgot)
      · exact .inr hfree
  | issuing hfree => exact htaken hfree (fun x hx => mem_take hx) hr
  | verifyEmail _ hfree | resetPassword _ hfree =>
    rw [mem_singleton.mp hr]
    exact .inr hfree
  | verifying _ hfree | resetting _ hfree =>
    rcases mem_cons.mp hr with rfl | hr
    · exact .inl (.head _)
    · rw [mem_singleton.mp hr]
      exact .inr hfree
  | clearing hfree =>
    rcases mem_cons.mp hr with rfl | hr
    · exact .inl (.head _)
    · rcases mem_cons.mp hr with rfl | hr
      · exact .inl (.tail _ (.head _))
      · rcases htaken hfree (fun x hx => mem_take hx) hr with hgot | hfree
        · exact .inl (.tail _ (.tail _ hgot))
        · exact .inr hfree
  | clear | cleared => exact .inl hr
  | _ => cases hr

theorem mem_of_getRefreshToken {d : AuthTables} {rt : RefreshToken}
    (hrt : d.getRefreshToken tokenHash = some rt) :
    rt ∈ d.refreshTokens ∧ rt.tokenHash = tokenHash := by
  refine ⟨mem_of_find?_eq_some hrt, ?_⟩
  have hfound := find?_some hrt
  exact of_decide_eq_true ((Bool.and_eq_true _ _).mp hfound).1

theorem open_of_findOneTimeToken {d : AuthTables} {purpose : TokenPurpose}
    {now : ℕ} {token : OneTimeToken} (htoken : d.findOneTimeToken tokenHash purpose now = some token) :
    token.Open d purpose := by
  have hsome := find?_some htoken
  obtain ⟨hfound, hlive⟩ := (Bool.and_eq_true _ _).mp hsome
  exact ⟨mem_of_find?_eq_some htoken, hlive, (of_decide_eq_true hfound).2.1⟩

/-- What a call reads when it goes on holds at that moment. -/
theorem Turn.fits (hturn : Turn h s t t') (hfits : t.Fits h s.tables) : t'.Fits h s.tables := by
  cases hturn with
  | refresh hrt =>
    obtain ⟨hmem, hhash⟩ := mem_of_getRefreshToken hrt
    unfold refreshed
    split
    · next hrotated => exact ⟨hmem, hrotated⟩
    · trivial
    · next hnone =>
      split
      · exact ⟨hmem, hnone, hhash⟩
      · trivial
  | issue => exact holds_nil
  | issuing => exact SnapshotUpdate.Holds.take hfits
  | verifyEmail htoken | resetPassword htoken => exact open_of_findOneTimeToken htoken
  | revoke | clear => exact ⟨hfits, holds_nil⟩
  | revoking | clearing => exact ⟨hfits.1, hfits.2.take⟩
  | verifying | resetting | cleared => exact hfits
  | _ => trivial

theorem begins_fits (call : AuthCall) (d : AuthTables) :
    (call.begins h).held = [] ∧ (call.begins h).Fits h d := by
  have hended : (AuthTask.done .ended).held = [] ∧ (AuthTask.done .ended).Fits h d :=
    ⟨rfl, trivial⟩
  refine AuthCall.begins_of (P := fun t => t.held = [] ∧ t.Fits h d) hended ?_
  cases call <;> exact ⟨rfl, trivial⟩

/-- **The rows that a commit has**: its call's own, or rows that no call has. -/
theorem Commits.spares (hc : Commits h s a s') : ∃ rows, s.tables.Spares rows s'.tables ∧
    ((∃ i t result, a = .step i ∧ s.tasks[i]? = some t ∧ rows = t.held ∧
        s'.tasks = s.tasks.set i (.done result)) ∨
      (s'.tasks = s.tasks ∧ ∀ r ∈ rows, s.FreeRow r)) := by
  cases hc with
  | rotate hi hd => exact ⟨_, spares_rotate hd, .inl ⟨_, _, _, rfl, hi, rfl, rfl⟩⟩
  | revoke hi => exact ⟨_, spares_revoke, .inl ⟨_, _, _, rfl, hi, rfl, rfl⟩⟩
  | logIn hi hd => exact ⟨_, spares_createSession hd, .inl ⟨_, _, _, rfl, hi, rfl, rfl⟩⟩
  | issue hi hd => exact ⟨_, spares_issue hd, .inl ⟨_, _, _, rfl, hi, rfl, rfl⟩⟩
  | verify hi => exact ⟨_, spares_verify, .inl ⟨_, _, _, rfl, hi, rfl, rfl⟩⟩
  | @register id email hash new familyId now d d' hd hsession =>
    have hspares : d.Spares [] d' := spares_createSession hsession
    obtain ⟨rfl, -⟩ := createUser_eq_some hd
    exact ⟨[], ⟨hspares.refreshToken, hspares.oneTimeToken⟩, .inr ⟨rfl, nofun⟩⟩
  | leave => exact ⟨[], .of_eq rfl rfl, .inr ⟨rfl, nofun⟩⟩

/-- **Where a call comes from** that is there after a step: it is as it was, it has just begun,
or it has committed or gone on. -/
theorem task_cases (hact : act h s a = some s') (hi' : s'.tasks[i]? = some t') :
    s.tasks[i]? = some t' ∨ (∃ call : AuthCall, t' = call.begins h) ∨
      (∃ t, s.tasks[i]? = some t ∧ ∃ result, t' = .done result) ∨
      ∃ t, s.tasks[i]? = some t ∧ Turn h s t t' := by
  rcases act_cases hact with hc | ⟨call, -, rfl⟩ | ⟨j, u, u', -, hj, -, rfl, hturn⟩
  · obtain ⟨rows, -, ⟨j, u, result, -, hj, -, htasks⟩ | ⟨htasks, -⟩⟩ := hc.spares
    · rw [htasks] at hi'
      rcases getElem?_set_cases hi' with ⟨rfl, rfl⟩ | ⟨-, hold⟩
      · exact .inr (.inr (.inl ⟨u, hj, result, rfl⟩))
      · exact .inl hold
    · rw [htasks] at hi'
      exact .inl hi'
  · rcases getElem?_concat_cases hi' with ⟨-, rfl⟩ | hold
    · exact .inr (.inl ⟨call, rfl⟩)
    · exact .inl hold
  · rcases getElem?_set_cases hi' with ⟨rfl, rfl⟩ | ⟨-, hold⟩
    · exact .inr (.inr (.inr ⟨u, hj, hturn⟩))
    · exact .inl hold

/-- **Calls that run at once**: no row is held twice, what each of them has read holds, and
ids and hashes are given once. -/
structure Sound (h : AuthHashes) (s : AuthService) : Prop where
  apart : HeldRows.Apart AuthTask.held s.tasks
  fits : ∀ t ∈ s.tasks, t.Fits h s.tables
  keyed : s.tables.Keyed

theorem Commits.keyed (hc : Commits h s a s') (hs : s.tables.Keyed) : s'.tables.Keyed := by
  cases hc with
  | rotate _ hd => exact keyed_createRefreshToken (hs.revokeRefreshTokens _ _) hd
  | @revoke i r families got hi =>
    cases r with
    | reset =>
      exact ((hs.consumeOneTimeToken _).updateUser _ _ |>.deleteOneTimeTokens _).revokeRefreshTokens
        _ _
    | _ => exact hs.revokeRefreshTokens _ _
  | logIn _ hd => exact keyed_createSession hs hd
  | issue _ hd => exact keyed_createOneTimeToken (hs.deleteOneTimeTokens _) hd
  | verify => exact (hs.consumeOneTimeToken _).updateUser _ _
  | @register id email hash new familyId now d d' hd hsession =>
    have hkeyed : d.Keyed := by
      obtain ⟨rfl, -⟩ := createUser_eq_some hd
      exact ⟨hs.ids, hs.hashes, hs.tokens⟩
    exact keyed_createSession hkeyed hsession
  | leave => exact hs.updateUser _ _

theorem Sound.act (hs : s.Sound h) (hact : act h s a = some s') : s'.Sound h := by
  rcases act_cases hact with hc | ⟨call, -, rfl⟩ | ⟨i, t, t', -, hi, -, rfl, hturn⟩
  · obtain ⟨rows, hspares, ⟨i, t, result, -, hi, rfl, htasks⟩ | ⟨htasks, hfree⟩⟩ := hc.spares
    · refine ⟨?_, fun u hu => ?_, hc.keyed hs.keyed⟩
      · rw [htasks]
        exact hs.apart.set hi nofun
      · rw [htasks] at hu
        obtain ⟨j, hj⟩ := mem_iff_getElem?.mp hu
        rcases getElem?_set_cases hj with ⟨-, rfl⟩ | ⟨hne, hj⟩
        · trivial
        · exact (hs.fits u (mem_of_getElem? hj)).spares hspares
            fun r hr => hs.apart.notMem hj hi hne hr
    · refine ⟨?_, fun u hu => ?_, hc.keyed hs.keyed⟩
      · rw [htasks]
        exact hs.apart
      · rw [htasks] at hu
        exact (hs.fits u hu).spares hspares fun r hr hrow => hfree r hrow u hu hr
  · obtain ⟨hheld, hfits⟩ := begins_fits (h := h) call s.tables
    refine ⟨hs.apart.concat hheld, fun u hu => ?_, hs.keyed⟩
    rcases mem_append.mp hu with hu | hu
    · exact hs.fits u hu
    · rw [mem_singleton.mp hu]
      exact hfits
  · refine ⟨hs.apart.set hi hturn.rows, fun u hu => ?_, hs.keyed⟩
    rcases mem_or_eq_of_mem_set hu with hu | rfl
    · exact hs.fits u hu
    · exact hturn.fits (hs.fits t (mem_of_getElem? hi))

theorem sound_of_init (hinit : (system h).init s) : s.Sound h := by
  rw [show s = ⟨⟨[], [], []⟩, []⟩ from hinit]
  exact ⟨apart_nil, fun t ht => absurd ht not_mem_nil, .nil⟩

end AuthService

end Hibari
