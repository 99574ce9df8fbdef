import Hibari.AuthTables
import Hibari.HeldRows
import Hibari.SnapshotUpdate
import Hibari.TransitionSystem

/-!
# The transactions of the authentication

The calls of the service as they run at once, statement by statement. A statement on one row
waits until no other transaction has it; a statement that writes rows by a condition finds
them when it begins and takes them one by one. Nothing that a transaction writes is seen by
others before it commits, and where it fails nothing is ever seen.

* `Refresh` locks its token and decides by what it reads then: it marks the token and adds
  the next one of the family, or it revokes the family of a token that was used before.
* `Logout`, `RevokeSession` and `RevokeOtherSessions` are one `UPDATE` each.
* `ResetPassword` consumes its token, writes the user, deletes the user's other tokens and
  revokes all refresh tokens, in one transaction.
* `Login` reads a user, compares the password, and adds a token when it is done. These are
  not one transaction, and no lock is held.

A row that is added locks the rows that it refers to against deletion only, which no
statement here waits for. No call takes a user out, but the statements ask whether the user
has left (`deleted_at`), so that may happen at any moment (`AuthAction.leave`).
-/

namespace Hibari

open Option

/-- A row that can be locked. -/
inductive AuthRow
  | user (id : Ulid)
  | refreshToken (id : Ulid)
  | oneTimeToken (id : Ulid)
  deriving DecidableEq

/-- **What refresh tokens are revoked for.** Reuse of a token that was exchanged before, and a
password that is reset, with the token that it was reset by and the tokens that were found and
those that are deleted with it, are part of a transaction; the others are statements of their
own. -/
inductive Revocation
  | logout (familyId : Ulid)
  | session (userId familyId : Ulid)
  | others (userId keepFamilyId : Ulid)
  | reuse (rt : RefreshToken)
  | reset (token : OneTimeToken) (hash : String) (seen deletes : List Ulid)
  deriving DecidableEq

namespace Revocation

/-- The rows that its condition names. -/
def covers : Revocation → RefreshToken → Bool
  | logout familyId, t => decide (t.familyId = familyId)
  | session userId familyId, t => decide (t.userId = userId ∧ t.familyId = familyId)
  | others userId keepFamilyId, t => decide (t.userId = userId ∧ t.familyId ≠ keepFamilyId)
  | reuse rt, t => decide (t.familyId = rt.familyId)
  | reset token _ _ _, t => decide (t.userId = token.userId)

/-- Its condition: the rows that are not revoked yet. -/
def hit (r : Revocation) (t : RefreshToken) : Bool := r.covers t && t.revoked.isNone

def reason : Revocation → RevokedReason
  | logout _ | session _ _ | others _ _ => .logout
  | reuse _ => .reuseDetected
  | reset _ _ _ _ => .passwordReset

/-- The rows that its transaction had before. -/
def held : Revocation → List AuthRow
  | logout _ | session _ _ | others _ _ => []
  | reuse rt => [.refreshToken rt.id]
  | reset token _ _ deletes =>
    .oneTimeToken token.id :: .user token.userId :: deletes.map .oneTimeToken

end Revocation

/-- How a call ended. -/
inductive AuthResult
  | refreshed (raw : String) (new : Ulid)
  | loggedIn (new : Ulid)
  | revoked (r : Revocation) (families : List Ulid) (rows : List Ulid)
  | issued (token : OneTimeToken)
  | verified (token : OneTimeToken)
  | ended
  deriving DecidableEq

/-- The one-time tokens that are deleted when a token is issued. -/
def OneTimeToken.replaces (t x : OneTimeToken) : Bool :=
  decide (x.userId = t.userId ∧ x.purpose = t.purpose) && x.live

/-- Those that are deleted when a password is reset: the transaction has consumed its own. -/
def OneTimeToken.voids (t x : OneTimeToken) : Bool := t.replaces x && decide (x.id ≠ t.id)

/-- **A call, as far as it has come.** What it is about to do next names it, and what it has
read or written so far is with it. -/
inductive AuthTask
  | refresh (raw : String) (now : ℕ) (new : OpaqueToken)
  | rotating (raw : String) (now : ℕ) (new : OpaqueToken) (rt : RefreshToken)
  | logout (raw : String)
  | revoke (r : Revocation)
  | revoking (r : Revocation) (families todo got : List Ulid)
  | login (email password : String) (new : OpaqueToken) (familyId : Ulid) (now : ℕ)
  | comparing (password : String) (new : OpaqueToken) (familyId : Ulid) (now : ℕ) (user : AuthUser)
  | requestEmailVerification (userId : Ulid) (new : OpaqueToken) (now : ℕ)
  | requestPasswordReset (email : String) (new : OpaqueToken) (now : ℕ)
  | issue (token : OneTimeToken)
  | issuing (token : OneTimeToken) (seen todo got : List Ulid)
  | verifyEmail (raw : String) (now : ℕ)
  | verifying (token : OneTimeToken)
  | marking (token : OneTimeToken)
  | resetPassword (raw hash : String) (now : ℕ)
  | resetting (token : OneTimeToken) (hash : String)
  | clear (token : OneTimeToken) (hash : String)
  | clearing (token : OneTimeToken) (hash : String) (seen todo got : List Ulid)
  | done (result : AuthResult)
  deriving DecidableEq

/-- The rows that a call has locked. -/
def AuthTask.held : AuthTask → List AuthRow
  | rotating _ _ _ rt => [.refreshToken rt.id]
  | revoke r => r.held
  | revoking r _ _ got => r.held ++ got.map .refreshToken
  | issuing _ _ _ got => got.map .oneTimeToken
  | verifying token | resetting token _ => [.oneTimeToken token.id]
  | marking token | clear token _ => [.oneTimeToken token.id, .user token.userId]
  | clearing token _ _ _ got =>
    .oneTimeToken token.id :: .user token.userId :: got.map .oneTimeToken
  | _ => []

/-- The calls. `sendEmailVerification` is part of the registration, too. -/
inductive AuthCall
  | login (email password : String) (new : OpaqueToken) (familyId : Ulid) (now : ℕ)
  | refresh (raw : String) (now : ℕ) (new : OpaqueToken)
  | logout (raw : String)
  | revokeSession (userId sessionId : Ulid)
  | revokeOtherSessions (userId keepSessionId : Ulid)
  | requestEmailVerification (userId : Ulid) (new : OpaqueToken) (now : ℕ)
  | sendEmailVerification (userId : Ulid) (new : OpaqueToken) (now : ℕ)
  | requestPasswordReset (email : String) (new : OpaqueToken) (now : ℕ)
  | verifyEmail (raw : String) (now : ℕ)
  | resetPassword (raw hash : String) (now : ℕ)
  deriving DecidableEq

/-- **The tables, and what runs on them.** -/
structure AuthService where
  tables : AuthTables
  tasks : List AuthTask
  deriving DecidableEq

/-- What happens: a call begins, goes on or fails; a user registers, or leaves. -/
inductive AuthAction
  | start (call : AuthCall)
  | step (i : ℕ)
  | fail (i : ℕ)
  | register (id : Ulid) (email hash : String) (new : OpaqueToken) (familyId : Ulid) (now : ℕ)
  | leave (userId : Ulid)
  deriving DecidableEq

/-- A call with an empty token, or for an empty address, is over at once. -/
def AuthCall.refused : AuthCall → Bool
  | refresh raw _ _ | logout raw | verifyEmail raw _ | resetPassword raw _ _ => decide (raw = "")
  | requestPasswordReset email _ _ => decide (email = "")
  | _ => false

/-- What a call does first. -/
def AuthCall.task (h : AuthHashes) : AuthCall → AuthTask
  | login email password new familyId now => .login email password new familyId now
  | refresh raw now new => .refresh raw now new
  | logout raw => .logout raw
  | revokeSession userId sessionId => .revoke (.session userId sessionId)
  | revokeOtherSessions userId keepSessionId => .revoke (.others userId keepSessionId)
  | requestEmailVerification userId new now => .requestEmailVerification userId new now
  | sendEmailVerification userId new now => .issue (oneTimeToken h new userId .emailVerify now)
  | requestPasswordReset email new now => .requestPasswordReset email new now
  | verifyEmail raw now => .verifyEmail raw now
  | resetPassword raw hash now => .resetPassword raw hash now

/-- **How a call begins.** -/
def AuthCall.begins (h : AuthHashes) (call : AuthCall) : AuthTask :=
  if call.refused then .done .ended else call.task h

theorem AuthCall.begins_of {P : AuthTask → Prop} {h : AuthHashes} {call : AuthCall}
    (hended : P (.done .ended)) (htask : P (call.task h)) : P (call.begins h) := by
  unfold begins
  split
  · exact hended
  · exact htask

namespace AuthTables

variable (h : AuthHashes) (d : AuthTables)

/-- `Refresh` commits: the token is marked, and the next one is there. -/
def rotate (rt : RefreshToken) (new : OpaqueToken) (now : ℕ) : Option AuthTables :=
  (d.markRefreshTokenRotated rt.id).createRefreshToken
    (startSession h new rt.userId rt.familyId (some rt.id) now rt.resets)

/-- A revocation commits, with all that its transaction has written. -/
def revoke (r : Revocation) (got : List Ulid) : AuthTables :=
  match r with
  | .reset token hash _ deletes =>
    (((d.consumeOneTimeToken token.id).updatePasswordFromReset token.userId hash).deleteOneTimeTokens
      deletes).revokeRefreshTokens got r.reason
  | _ => d.revokeRefreshTokens got r.reason

/-- `issueOneTimeToken` commits. -/
def issue (token : OneTimeToken) (deletes : List Ulid) : Option AuthTables :=
  (d.deleteOneTimeTokens deletes).createOneTimeToken token

/-- `VerifyEmail` commits. -/
def verify (token : OneTimeToken) : AuthTables :=
  (d.consumeOneTimeToken token.id).markEmailVerified token.userId

end AuthTables

namespace AuthService

variable (h : AuthHashes) (s : AuthService)

/-- No call holds a row. -/
abbrev FreeRow (r : AuthRow) : Prop := HeldRows.Free AuthTask.held s.tasks r

/-- A call goes on. -/
def goes (i : ℕ) (t : AuthTask) : AuthService := { s with tasks := s.tasks.set i t }

/-- A call waits for a row, and goes on. -/
def locks (r : AuthRow) (i : ℕ) (t : AuthTask) : Option AuthService :=
  if s.FreeRow r then some (s.goes i t) else none

/-- A call commits. -/
def commits (i : ℕ) (result : AuthResult) (d : AuthTables) : AuthService :=
  { s with tables := d }.goes i (.done result)

/-- What `Refresh` does with the token that it has locked. -/
def refreshed (raw : String) (now : ℕ) (new : OpaqueToken) (rt : RefreshToken) : AuthTask :=
  match rt.revoked with
  | some .rotated => .revoke (.reuse rt)
  | some _ => .done .ended
  | none => if now < rt.expiresAt then .rotating raw now new rt else .done .ended

/-- **One step of a call.** -/
def next (i : ℕ) : AuthTask → Option AuthService
  | .refresh raw now new =>
    match s.tables.getRefreshToken (h.hashOpaqueToken raw) with
    | some rt => s.locks (.refreshToken rt.id) i (refreshed raw now new rt)
    | none => some (s.goes i (.done .ended))
  | .rotating raw now new rt =>
    (s.tables.rotate h rt new now).map (s.commits i (.refreshed raw new.id))
  | .logout raw =>
    some (s.goes i (match s.tables.getRefreshTokenFamily (h.hashOpaqueToken raw) with
      | some familyId => .revoke (.logout familyId)
      | none => .done .ended))
  | .revoke r =>
    some (s.goes i (.revoking r ((s.tables.refreshTokens.filter r.covers).map RefreshToken.familyId)
      (SnapshotUpdate.found RefreshToken.id r.hit s.tables.refreshTokens) []))
  | .revoking r families (k :: todo) got =>
    s.locks (.refreshToken k) i (.revoking r families todo
      (SnapshotUpdate.take RefreshToken.id r.hit s.tables.refreshTokens got k))
  | .revoking r families [] got =>
    some (s.commits i (.revoked r families got) (s.tables.revoke r got))
  | .login email password new familyId now =>
    some (s.goes i (match s.tables.getActiveUserByEmail email with
      | some user => .comparing password new familyId now user
      | none => .done .ended))
  | .comparing password new familyId now user =>
    if user.passwordHash.any (h.compare password) then
      (s.tables.createSession (startSession h new user.id familyId none now user.resets)).map
        (s.commits i (.loggedIn new.id))
    else some (s.goes i (.done .ended))
  | .requestEmailVerification userId new now =>
    some (s.goes i (match s.tables.getActiveUserByID userId with
      | some user =>
        if user.emailVerified then .done .ended
        else .issue (oneTimeToken h new user.id .emailVerify now)
      | none => .done .ended))
  | .requestPasswordReset email new now =>
    some (s.goes i (match s.tables.getActiveUserByEmail email with
      | some user => .issue (oneTimeToken h new user.id .passwordReset now)
      | none => .done .ended))
  | .issue token =>
    some (s.goes i (.issuing token ((s.tables.oneTimeTokens.filter fun x =>
        decide (x.userId = token.userId ∧ x.purpose = token.purpose)).map OneTimeToken.id)
      (SnapshotUpdate.found OneTimeToken.id token.replaces s.tables.oneTimeTokens) []))
  | .issuing token seen (k :: todo) got =>
    s.locks (.oneTimeToken k) i (.issuing token seen todo
      (SnapshotUpdate.take OneTimeToken.id token.replaces s.tables.oneTimeTokens got k))
  | .issuing token _ [] got => (s.tables.issue token got).map (s.commits i (.issued token))
  | .verifyEmail raw now =>
    match s.tables.findOneTimeToken (h.hashOpaqueToken raw) .emailVerify now with
    | some token => s.locks (.oneTimeToken token.id) i (.verifying token)
    | none => some (s.goes i (.done .ended))
  | .verifying token =>
    if (s.tables.getActiveUserByID token.userId).isSome then
      s.locks (.user token.userId) i (.marking token)
    else some (s.goes i (.done .ended))
  | .marking token => some (s.commits i (.verified token) (s.tables.verify token))
  | .resetPassword raw hash now =>
    match s.tables.findOneTimeToken (h.hashOpaqueToken raw) .passwordReset now with
    | some token => s.locks (.oneTimeToken token.id) i (.resetting token hash)
    | none => some (s.goes i (.done .ended))
  | .resetting token hash =>
    if (s.tables.getActiveUserByID token.userId).isSome then
      s.locks (.user token.userId) i (.clear token hash)
    else some (s.goes i (.done .ended))
  | .clear token hash =>
    some (s.goes i (.clearing token hash ((s.tables.oneTimeTokens.filter fun x =>
        decide (x.userId = token.userId ∧ x.purpose = token.purpose)).map OneTimeToken.id)
      (SnapshotUpdate.found OneTimeToken.id token.voids s.tables.oneTimeTokens) []))
  | .clearing token hash seen (k :: todo) got =>
    s.locks (.oneTimeToken k) i (.clearing token hash seen todo
      (SnapshotUpdate.take OneTimeToken.id token.voids s.tables.oneTimeTokens got k))
  | .clearing token hash seen [] got => some (s.goes i (.revoke (.reset token hash seen got)))
  | .done _ => none

/-- One step. -/
def act : AuthAction → Option AuthService
  | .start call => some { s with tasks := s.tasks ++ [call.begins h] }
  | .step i => s.tasks[i]?.bind (next h s i)
  | .fail i =>
    match s.tasks[i]? with
    | some (.done _) | none => none
    | some _ => some (s.goes i (.done .ended))
  | .register id email hash new familyId now =>
    ((s.tables.createUser id email hash).bind fun d =>
      d.createSession (startSession h new id familyId none now 0)).map fun d => { s with tables := d }
  | .leave userId =>
    if s.FreeRow (.user userId) then
      some { s with tables := s.tables.updateUser userId fun u => { u with deleted := true } }
    else none

/-- **The runs of the service** on empty tables. -/
def system : TransitionSystem AuthService AuthAction where
  init s := s = ⟨⟨[], [], []⟩, []⟩
  step s a := act h s a

/-! ## What a step is -/

/-- **A commit.** -/
inductive Commits : AuthAction → AuthService → Prop
  | rotate {i : ℕ} {raw : String} {now : ℕ} {new : OpaqueToken} {rt : RefreshToken}
      {d : AuthTables} : s.tasks[i]? = some (.rotating raw now new rt) →
      s.tables.rotate h rt new now = some d →
      Commits (.step i) (s.commits i (.refreshed raw new.id) d)
  | revoke {i : ℕ} {r : Revocation} {families got : List Ulid} :
      s.tasks[i]? = some (.revoking r families [] got) →
      Commits (.step i) (s.commits i (.revoked r families got) (s.tables.revoke r got))
  | logIn {i : ℕ} {password : String} {new : OpaqueToken} {familyId : Ulid} {now : ℕ}
      {user : AuthUser} {d : AuthTables} :
      s.tasks[i]? = some (.comparing password new familyId now user) →
      s.tables.createSession (startSession h new user.id familyId none now user.resets) = some d →
      Commits (.step i) (s.commits i (.loggedIn new.id) d)
  | issue {i : ℕ} {token : OneTimeToken} {seen got : List Ulid} {d : AuthTables} :
      s.tasks[i]? = some (.issuing token seen [] got) → s.tables.issue token got = some d →
      Commits (.step i) (s.commits i (.issued token) d)
  | verify {i : ℕ} {token : OneTimeToken} : s.tasks[i]? = some (.marking token) →
      Commits (.step i) (s.commits i (.verified token) (s.tables.verify token))
  | register {id : Ulid} {email hash : String} {new : OpaqueToken} {familyId : Ulid} {now : ℕ}
      {d d' : AuthTables} : s.tables.createUser id email hash = some d →
      d.createSession (startSession h new id familyId none now 0) = some d' →
      Commits (.register id email hash new familyId now) { s with tables := d' }
  | leave {userId : Ulid} : s.FreeRow (.user userId) → Commits (.leave userId)
      { s with tables := s.tables.updateUser userId fun u => { u with deleted := true } }

/-- **What a call does in a step in which it does not commit.** -/
inductive Turn : AuthTask → AuthTask → Prop
  | refresh {raw : String} {now : ℕ} {new : OpaqueToken} {rt : RefreshToken} :
      s.tables.getRefreshToken (h.hashOpaqueToken raw) = some rt →
      s.FreeRow (.refreshToken rt.id) → Turn (.refresh raw now new) (refreshed raw now new rt)
  | logout {raw : String} {familyId : Ulid} : Turn (.logout raw) (.revoke (.logout familyId))
  | revoke {r : Revocation} : Turn (.revoke r)
      (.revoking r ((s.tables.refreshTokens.filter r.covers).map RefreshToken.familyId)
        (SnapshotUpdate.found RefreshToken.id r.hit s.tables.refreshTokens) [])
  | revoking {r : Revocation} {families todo got : List Ulid} {k : Ulid} :
      s.FreeRow (.refreshToken k) → Turn (.revoking r families (k :: todo) got)
        (.revoking r families todo
          (SnapshotUpdate.take RefreshToken.id r.hit s.tables.refreshTokens got k))
  | login {email password : String} {new : OpaqueToken} {familyId : Ulid} {now : ℕ}
      {user : AuthUser} : s.tables.getActiveUserByEmail email = some user →
      Turn (.login email password new familyId now) (.comparing password new familyId now user)
  | requestEmailVerification {userId : Ulid} {new : OpaqueToken} {now : ℕ} {token : OneTimeToken} :
      Turn (.requestEmailVerification userId new now) (.issue token)
  | requestPasswordReset {email : String} {new : OpaqueToken} {now : ℕ} {token : OneTimeToken} :
      Turn (.requestPasswordReset email new now) (.issue token)
  | issue {token : OneTimeToken} : Turn (.issue token) (.issuing token
      ((s.tables.oneTimeTokens.filter fun x =>
        decide (x.userId = token.userId ∧ x.purpose = token.purpose)).map OneTimeToken.id)
      (SnapshotUpdate.found OneTimeToken.id token.replaces s.tables.oneTimeTokens) [])
  | issuing {token : OneTimeToken} {seen todo got : List Ulid} {k : Ulid} :
      s.FreeRow (.oneTimeToken k) → Turn (.issuing token seen (k :: todo) got)
        (.issuing token seen todo
          (SnapshotUpdate.take OneTimeToken.id token.replaces s.tables.oneTimeTokens got k))
  | verifyEmail {raw : String} {now : ℕ} {token : OneTimeToken} :
      s.tables.findOneTimeToken (h.hashOpaqueToken raw) .emailVerify now = some token →
      s.FreeRow (.oneTimeToken token.id) → Turn (.verifyEmail raw now) (.verifying token)
  | verifying {token : OneTimeToken} : (s.tables.getActiveUserByID token.userId).isSome →
      s.FreeRow (.user token.userId) → Turn (.verifying token) (.marking token)
  | resetPassword {raw hash : String} {now : ℕ} {token : OneTimeToken} :
      s.tables.findOneTimeToken (h.hashOpaqueToken raw) .passwordReset now = some token →
      s.FreeRow (.oneTimeToken token.id) →
      Turn (.resetPassword raw hash now) (.resetting token hash)
  | resetting {token : OneTimeToken} {hash : String} :
      (s.tables.getActiveUserByID token.userId).isSome → s.FreeRow (.user token.userId) →
      Turn (.resetting token hash) (.clear token hash)
  | clear {token : OneTimeToken} {hash : String} : Turn (.clear token hash) (.clearing token hash
      ((s.tables.oneTimeTokens.filter fun x =>
        decide (x.userId = token.userId ∧ x.purpose = token.purpose)).map OneTimeToken.id)
      (SnapshotUpdate.found OneTimeToken.id token.voids s.tables.oneTimeTokens) [])
  | clearing {token : OneTimeToken} {hash : String} {seen todo got : List Ulid} {k : Ulid} :
      s.FreeRow (.oneTimeToken k) → Turn (.clearing token hash seen (k :: todo) got)
        (.clearing token hash seen todo
          (SnapshotUpdate.take OneTimeToken.id token.voids s.tables.oneTimeTokens got k))
  | cleared {token : OneTimeToken} {hash : String} {seen got : List Ulid} :
      Turn (.clearing token hash seen [] got) (.revoke (.reset token hash seen got))
  | ended {t : AuthTask} : Turn t (.done .ended)

variable {h} {s} {s' : AuthService} {a : AuthAction} {i : ℕ} {t t' : AuthTask}

theorem locks_eq_some {r : AuthRow} (hlocks : s.locks r i t = some s') :
    s.FreeRow r ∧ s' = s.goes i t := by
  unfold locks at hlocks
  by_cases hfree : s.FreeRow r
  · rw [if_pos hfree] at hlocks
    exact ⟨hfree, (some.inj hlocks).symm⟩
  · rw [if_neg hfree] at hlocks
    cases hlocks

/-- **A step of a call**: it commits, or goes on. -/
theorem next_cases (hi : s.tasks[i]? = some t) (hnext : next h s i t = some s') :
    Commits h s (.step i) s' ∨ ∃ t', s' = s.goes i t' ∧ Turn h s t t' := by
  have hgoes : ∀ {t'}, Turn h s t t' → some (s.goes i t') = some s' →
      Commits h s (.step i) s' ∨ ∃ t', s' = s.goes i t' ∧ Turn h s t t' :=
    fun {t'} hturn heq => .inr ⟨t', (some.inj heq).symm, hturn⟩
  have hlocks : ∀ {r t'}, (s.FreeRow r → Turn h s t t') → s.locks r i t' = some s' →
      Commits h s (.step i) s' ∨ ∃ t', s' = s.goes i t' ∧ Turn h s t t' := fun {r t'} hturn heq =>
    .inr ⟨t', (locks_eq_some heq).2, hturn (locks_eq_some heq).1⟩
  cases t with
  | refresh raw =>
    simp only [next] at hnext
    cases hrt : s.tables.getRefreshToken (h.hashOpaqueToken raw) with
    | none =>
      rw [hrt] at hnext
      exact hgoes .ended hnext
    | some =>
      rw [hrt] at hnext
      exact hlocks (.refresh hrt) hnext
  | rotating =>
    obtain ⟨d, hd, rfl⟩ := map_eq_some_iff.mp hnext
    exact .inl (.rotate hi hd)
  | logout =>
    simp only [next] at hnext
    split at hnext
    · exact hgoes .logout hnext
    · exact hgoes .ended hnext
  | revoke => exact hgoes .revoke hnext
  | revoking _ _ todo =>
    cases todo with
    | nil =>
      cases hnext
      exact .inl (.revoke hi)
    | cons => exact hlocks .revoking hnext
  | login email =>
    simp only [next] at hnext
    cases huser : s.tables.getActiveUserByEmail email with
    | none =>
      rw [huser] at hnext
      exact hgoes .ended hnext
    | some =>
      rw [huser] at hnext
      exact hgoes (.login huser) hnext
  | comparing password _ _ _ user =>
    simp only [next] at hnext
    by_cases hif : user.passwordHash.any (h.compare password) = true
    · rw [if_pos hif] at hnext
      obtain ⟨d, hd, rfl⟩ := map_eq_some_iff.mp hnext
      exact .inl (.logIn hi hd)
    · rw [if_neg hif] at hnext
      exact hgoes .ended hnext
  | requestEmailVerification =>
    simp only [next] at hnext
    split at hnext
    · split at hnext
      · exact hgoes .ended hnext
      · exact hgoes .requestEmailVerification hnext
    · exact hgoes .ended hnext
  | requestPasswordReset =>
    simp only [next] at hnext
    split at hnext
    · exact hgoes .requestPasswordReset hnext
    · exact hgoes .ended hnext
  | issue => exact hgoes .issue hnext
  | issuing _ _ todo =>
    cases todo with
    | nil =>
      obtain ⟨d, hd, rfl⟩ := map_eq_some_iff.mp hnext
      exact .inl (.issue hi hd)
    | cons => exact hlocks .issuing hnext
  | verifyEmail raw now =>
    simp only [next] at hnext
    cases htoken : s.tables.findOneTimeToken (h.hashOpaqueToken raw) .emailVerify now with
    | none =>
      rw [htoken] at hnext
      exact hgoes .ended hnext
    | some =>
      rw [htoken] at hnext
      exact hlocks (.verifyEmail htoken) hnext
  | verifying token =>
    simp only [next] at hnext
    by_cases hif : (s.tables.getActiveUserByID token.userId).isSome = true
    · rw [if_pos hif] at hnext
      exact hlocks (.verifying hif) hnext
    · rw [if_neg hif] at hnext
      exact hgoes .ended hnext
  | marking =>
    cases hnext
    exact .inl (.verify hi)
  | resetPassword raw _ now =>
    simp only [next] at hnext
    cases htoken : s.tables.findOneTimeToken (h.hashOpaqueToken raw) .passwordReset now with
    | none =>
      rw [htoken] at hnext
      exact hgoes .ended hnext
    | some =>
      rw [htoken] at hnext
      exact hlocks (.resetPassword htoken) hnext
  | resetting token =>
    simp only [next] at hnext
    by_cases hif : (s.tables.getActiveUserByID token.userId).isSome = true
    · rw [if_pos hif] at hnext
      exact hlocks (.resetting hif) hnext
    · rw [if_neg hif] at hnext
      exact hgoes .ended hnext
  | clear => exact hgoes .clear hnext
  | clearing _ _ _ todo =>
    cases todo with
    | nil => exact hgoes .cleared hnext
    | cons => exact hlocks .clearing hnext
  | done => exact absurd hnext (by simp [next])

/-- **What a step is**: a commit, a call that begins, or one that goes on. -/
theorem act_cases (hact : act h s a = some s') : Commits h s a s' ∨
    (∃ call, a = .start call ∧ s' = { s with tasks := s.tasks ++ [call.begins h] }) ∨
    ∃ i t t', (a = .step i ∨ a = .fail i ∧ t' = .done .ended) ∧ s.tasks[i]? = some t ∧
      (∀ result, t ≠ .done result) ∧ s' = s.goes i t' ∧ Turn h s t t' := by
  cases a with
  | start call => exact .inr (.inl ⟨call, rfl, (some.inj hact).symm⟩)
  | step i =>
    obtain ⟨t, hi, hnext⟩ := bind_eq_some_iff.mp hact
    rcases next_cases hi hnext with hcommits | ⟨t', rfl, hturn⟩
    · exact .inl hcommits
    · refine .inr (.inr ⟨i, t, t', .inl rfl, hi, fun result heq => ?_, rfl, hturn⟩)
      rw [heq] at hnext
      exact absurd hnext (by simp [next])
  | fail i =>
    simp only [act] at hact
    split at hact
    · cases hact
    · cases hact
    · next t hnot hi =>
      refine .inr (.inr ⟨i, t, _, .inr ⟨rfl, rfl⟩, hi, fun result heq => ?_,
        (some.inj hact).symm, .ended⟩)
      exact hnot result heq
  | register =>
    obtain ⟨d', hd', rfl⟩ := map_eq_some_iff.mp hact
    obtain ⟨d, hd, hsession⟩ := bind_eq_some_iff.mp hd'
    exact .inl (.register hd hsession)
  | leave userId =>
    simp only [act] at hact
    by_cases hfree : s.FreeRow (.user userId)
    · rw [if_pos hfree] at hact
      cases hact
      exact .inl (.leave hfree)
    · rw [if_neg hfree] at hact
      cases hact

end AuthService

end Hibari
