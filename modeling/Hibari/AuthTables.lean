import Hibari.Message

/-!
# Users and their tokens

The tables of the authentication: users, refresh tokens and one-time tokens, and what the
statements on them write. A session is a **family** of refresh tokens: the first is issued
when its user logs in, and each is exchanged once for the next. A one-time token is sent by
mail; it confirms an address, or lets its holder choose a new password.

Rows are in the order in which they were committed. A refresh token is never removed, and a
one-time token that is deleted is only marked here (`deleted`), so that its place in that
order stays. Two columns are ours: the number of times that a user's password was reset, and
with each refresh token that number at the moment at which the password was read that its
session was started with (`resets`).
-/

namespace Hibari

/-- The functions of cryptography: the hash of a token, and whether a password is that of a
hash. -/
structure AuthHashes where
  hashOpaqueToken : String → String
  compare : String → String → Bool

/-- Nothing is hashed. -/
def AuthHashes.plain : AuthHashes where
  hashOpaqueToken raw := raw
  compare password hash := decide (password = hash)

/-- A row of `users`. -/
structure AuthUser where
  id : Ulid
  email : String
  passwordHash : Option String
  emailVerified : Bool
  deleted : Bool
  resets : ℕ
  deriving DecidableEq

/-- `refresh_tokens.revoked_reason`. -/
inductive RevokedReason
  | rotated
  | logout
  | reuseDetected
  | passwordReset
  deriving DecidableEq

/-- A row of `refresh_tokens`. -/
structure RefreshToken where
  id : Ulid
  userId : Ulid
  familyId : Ulid
  tokenHash : String
  rotatedFrom : Option Ulid
  expiresAt : ℕ
  revoked : Option RevokedReason
  resets : ℕ
  deriving DecidableEq

/-- `one_time_tokens.purpose`. -/
inductive TokenPurpose
  | emailVerify
  | passwordReset
  deriving DecidableEq

/-- A row of `one_time_tokens`. -/
structure OneTimeToken where
  id : Ulid
  userId : Ulid
  purpose : TokenPurpose
  tokenHash : String
  expiresAt : ℕ
  consumed : Bool
  deleted : Bool
  deriving DecidableEq

/-- The id of a row and the token that its holder is given, both drawn anew. -/
structure OpaqueToken where
  id : Ulid
  raw : String
  deriving DecidableEq

/-- `RefreshTokenTTL`, in nanoseconds as the others. -/
def RefreshTokenTTL : ℕ := 30 * 24 * 60 * 60 * 1000000000

def EmailVerificationTTL : ℕ := 24 * 60 * 60 * 1000000000

def PasswordResetTTL : ℕ := 60 * 60 * 1000000000

/-- How long a one-time token may be used. -/
def TokenPurpose.ttl : TokenPurpose → ℕ
  | emailVerify => EmailVerificationTTL
  | passwordReset => PasswordResetTTL

/-- A token that was neither consumed nor deleted. -/
def OneTimeToken.live (t : OneTimeToken) : Bool := !t.consumed && !t.deleted

/-- **The tables.** -/
structure AuthTables where
  users : List AuthUser
  refreshTokens : List RefreshToken
  oneTimeTokens : List OneTimeToken
  deriving DecidableEq

/-- `startSession`: the row of a new refresh token. -/
def startSession (h : AuthHashes) (new : OpaqueToken) (userId familyId : Ulid)
    (rotatedFrom : Option Ulid) (now resets : ℕ) : RefreshToken where
  id := new.id
  userId := userId
  familyId := familyId
  tokenHash := h.hashOpaqueToken new.raw
  rotatedFrom := rotatedFrom
  expiresAt := now + RefreshTokenTTL
  revoked := none
  resets := resets

/-- The row that `issueOneTimeToken` writes. -/
def oneTimeToken (h : AuthHashes) (new : OpaqueToken) (userId : Ulid) (purpose : TokenPurpose)
    (now : ℕ) : OneTimeToken where
  id := new.id
  userId := userId
  purpose := purpose
  tokenHash := h.hashOpaqueToken new.raw
  expiresAt := now + purpose.ttl
  consumed := false
  deleted := false

/-- A row, after some rows were revoked. -/
def RefreshToken.revokedIn (ids : List Ulid) (reason : RevokedReason) (t : RefreshToken) :
    RefreshToken :=
  if t.id ∈ ids then { t with revoked := some reason } else t

/-- A row, after some rows were deleted. -/
def OneTimeToken.deletedIn (ids : List Ulid) (t : OneTimeToken) : OneTimeToken :=
  if t.id ∈ ids then { t with deleted := true } else t

/-- A row, after one row was consumed. -/
def OneTimeToken.consumedAs (id : Ulid) (t : OneTimeToken) : OneTimeToken :=
  if t.id = id then { t with consumed := true } else t

namespace AuthTables

variable (d : AuthTables)

/-- `GetActiveUserByEmail`. -/
def getActiveUserByEmail (email : String) : Option AuthUser :=
  d.users.find? fun u => decide (u.email = email) && !u.deleted

/-- `GetActiveUserByID`. -/
def getActiveUserByID (id : Ulid) : Option AuthUser :=
  d.users.find? fun u => decide (u.id = id) && !u.deleted

/-- `GetRefreshTokenForUpdate`, less its lock: the tokens of users who have left are not
found. -/
def getRefreshToken (tokenHash : String) : Option RefreshToken :=
  d.refreshTokens.find? fun t =>
    decide (t.tokenHash = tokenHash) && (d.getActiveUserByID t.userId).isSome

/-- `GetRefreshTokenFamily`. -/
def getRefreshTokenFamily (tokenHash : String) : Option Ulid :=
  (d.refreshTokens.find? fun t => decide (t.tokenHash = tokenHash)).map RefreshToken.familyId

/-- `CreateRefreshToken`; no row has the id, nor the hash. -/
def createRefreshToken (t : RefreshToken) : Option AuthTables :=
  if d.refreshTokens.any (fun x => decide (x.id = t.id ∨ x.tokenHash = t.tokenHash)) then none
  else some { d with refreshTokens := d.refreshTokens ++ [t] }

/-- The first token of a session, whose id is drawn anew, too. -/
def createSession (t : RefreshToken) : Option AuthTables :=
  if d.refreshTokens.any (fun x => decide (x.familyId = t.familyId)) then none
  else d.createRefreshToken t

/-- Some refresh tokens are revoked. -/
def revokeRefreshTokens (ids : List Ulid) (reason : RevokedReason) : AuthTables :=
  { d with refreshTokens := d.refreshTokens.map (RefreshToken.revokedIn ids reason) }

/-- `MarkRefreshTokenRotated`. -/
def markRefreshTokenRotated (id : Ulid) : AuthTables := d.revokeRefreshTokens [id] .rotated

/-- The `UPDATE` of `ConsumeOneTimeToken`, less its lock: the token that it finds. -/
def findOneTimeToken (tokenHash : String) (purpose : TokenPurpose) (now : ℕ) : Option OneTimeToken :=
  d.oneTimeTokens.find? fun t =>
    decide (t.tokenHash = tokenHash ∧ t.purpose = purpose ∧ now < t.expiresAt) && t.live

/-- A token is consumed. -/
def consumeOneTimeToken (id : Ulid) : AuthTables :=
  { d with oneTimeTokens := d.oneTimeTokens.map (OneTimeToken.consumedAs id) }

/-- Some one-time tokens are deleted. -/
def deleteOneTimeTokens (ids : List Ulid) : AuthTables :=
  { d with oneTimeTokens := d.oneTimeTokens.map (OneTimeToken.deletedIn ids) }

/-- `CreateOneTimeToken`; no row has the id, nor the hash. -/
def createOneTimeToken (t : OneTimeToken) : Option AuthTables :=
  if d.oneTimeTokens.any (fun x => decide (x.id = t.id ∨ x.tokenHash = t.tokenHash)) then none
  else some { d with oneTimeTokens := d.oneTimeTokens ++ [t] }

/-- A user is written. -/
def updateUser (id : Ulid) (f : AuthUser → AuthUser) : AuthTables :=
  { d with users := d.users.map fun u => if u.id = id then f u else u }

/-- `MarkEmailVerified`, of a user who has not left. -/
def markEmailVerified (id : Ulid) : AuthTables :=
  d.updateUser id fun u => { u with emailVerified := true }

/-- `UpdatePasswordFromReset`, of a user who has not left. -/
def updatePasswordFromReset (id : Ulid) (passwordHash : String) : AuthTables :=
  d.updateUser id fun u => { u with
    passwordHash := some passwordHash
    emailVerified := true
    resets := u.resets + 1 }

/-- `CreateUser`; no row has the id, nor the address. -/
def createUser (id : Ulid) (email passwordHash : String) : Option AuthTables :=
  if d.users.any (fun u => decide (u.id = id ∨ u.email = email)) then none
  else some { d with users := d.users ++ [⟨id, email, some passwordHash, false, false, 0⟩] }

end AuthTables

/-! ## What is written, and what is not -/

namespace RefreshToken

variable {ids : List Ulid} {reason : RevokedReason} (t : RefreshToken)

@[simp] theorem revokedIn_id : (t.revokedIn ids reason).id = t.id := by
  unfold revokedIn
  split <;> rfl

@[simp] theorem revokedIn_userId : (t.revokedIn ids reason).userId = t.userId := by
  unfold revokedIn
  split <;> rfl

@[simp] theorem revokedIn_familyId : (t.revokedIn ids reason).familyId = t.familyId := by
  unfold revokedIn
  split <;> rfl

@[simp] theorem revokedIn_tokenHash : (t.revokedIn ids reason).tokenHash = t.tokenHash := by
  unfold revokedIn
  split <;> rfl

@[simp] theorem revokedIn_rotatedFrom : (t.revokedIn ids reason).rotatedFrom = t.rotatedFrom := by
  unfold revokedIn
  split <;> rfl

@[simp] theorem revokedIn_resets : (t.revokedIn ids reason).resets = t.resets := by
  unfold revokedIn
  split <;> rfl

variable {t}

theorem revokedIn_of_notMem (h : t.id ∉ ids) : t.revokedIn ids reason = t := if_neg h

theorem revokedIn_of_mem (h : t.id ∈ ids) :
    t.revokedIn ids reason = { t with revoked := some reason } := if_pos h

/-- A row that is not revoked now was not before, and was not among those that were. -/
theorem of_revokedIn_none (h : (t.revokedIn ids reason).revoked = none) :
    t.revoked = none ∧ t.id ∉ ids ∧ t.revokedIn ids reason = t := by
  by_cases hmem : t.id ∈ ids
  · rw [revokedIn_of_mem hmem] at h
    cases h
  · rw [revokedIn_of_notMem hmem] at h
    exact ⟨h, hmem, revokedIn_of_notMem hmem⟩

end RefreshToken

namespace OneTimeToken

variable {ids : List Ulid} {id : Ulid} (t : OneTimeToken)

@[simp] theorem deletedIn_id : (t.deletedIn ids).id = t.id := by
  unfold deletedIn
  split <;> rfl

@[simp] theorem deletedIn_userId : (t.deletedIn ids).userId = t.userId := by
  unfold deletedIn
  split <;> rfl

@[simp] theorem deletedIn_purpose : (t.deletedIn ids).purpose = t.purpose := by
  unfold deletedIn
  split <;> rfl

@[simp] theorem consumedAs_id : (t.consumedAs id).id = t.id := by
  unfold consumedAs
  split <;> rfl

@[simp] theorem consumedAs_userId : (t.consumedAs id).userId = t.userId := by
  unfold consumedAs
  split <;> rfl

@[simp] theorem consumedAs_purpose : (t.consumedAs id).purpose = t.purpose := by
  unfold consumedAs
  split <;> rfl

variable {t}

theorem deletedIn_of_notMem (h : t.id ∉ ids) : t.deletedIn ids = t := if_neg h

theorem consumedAs_of_ne (h : t.id ≠ id) : t.consumedAs id = t := if_neg h

theorem consumedAs_consumed (h : t.id = id) : (t.consumedAs id).consumed = true := by
  unfold consumedAs
  rw [if_pos h]

theorem of_deletedIn_live (h : (t.deletedIn ids).live = true) :
    t.id ∉ ids ∧ t.deletedIn ids = t := by
  by_cases hmem : t.id ∈ ids
  · unfold deletedIn at h
    rw [if_pos hmem] at h
    exact absurd h (by simp [live])
  · exact ⟨hmem, deletedIn_of_notMem hmem⟩

theorem of_consumedAs_live (h : (t.consumedAs id).live = true) : t.id ≠ id ∧ t.consumedAs id = t := by
  by_cases heq : t.id = id
  · unfold consumedAs at h
    rw [if_pos heq] at h
    exact absurd h (by simp [live])
  · exact ⟨heq, consumedAs_of_ne heq⟩

end OneTimeToken

namespace AuthTables

variable {d d' : AuthTables} {t : RefreshToken} {token : OneTimeToken}

/-- A refresh token that is added is new, by its id and by its hash. -/
theorem createRefreshToken_eq_some (h : d.createRefreshToken t = some d') :
    d' = { d with refreshTokens := d.refreshTokens ++ [t] } ∧
      ∀ x ∈ d.refreshTokens, x.id ≠ t.id ∧ x.tokenHash ≠ t.tokenHash := by
  unfold createRefreshToken at h
  by_cases hany : d.refreshTokens.any
      (fun x => decide (x.id = t.id ∨ x.tokenHash = t.tokenHash)) = true
  · rw [if_pos hany] at h
    cases h
  · rw [if_neg hany] at h
    refine ⟨(Option.some.inj h).symm, fun x hx => ?_⟩
    rw [List.any_eq_true] at hany
    exact not_or.mp fun hor => hany ⟨x, hx, decide_eq_true hor⟩

theorem createSession_eq_some (h : d.createSession t = some d') :
    d' = { d with refreshTokens := d.refreshTokens ++ [t] } ∧
      (∀ x ∈ d.refreshTokens, x.id ≠ t.id ∧ x.tokenHash ≠ t.tokenHash) ∧
      ∀ x ∈ d.refreshTokens, x.familyId ≠ t.familyId := by
  unfold createSession at h
  by_cases hany : d.refreshTokens.any (fun x => decide (x.familyId = t.familyId)) = true
  · rw [if_pos hany] at h
    cases h
  · rw [if_neg hany] at h
    obtain ⟨hd', hfresh⟩ := createRefreshToken_eq_some h
    refine ⟨hd', hfresh, fun x hx heq => ?_⟩
    rw [List.any_eq_true] at hany
    exact hany ⟨x, hx, decide_eq_true heq⟩

theorem createOneTimeToken_eq_some (h : d.createOneTimeToken token = some d') :
    d' = { d with oneTimeTokens := d.oneTimeTokens ++ [token] } ∧
      ∀ x ∈ d.oneTimeTokens, x.id ≠ token.id := by
  unfold createOneTimeToken at h
  by_cases hany : d.oneTimeTokens.any
      (fun x => decide (x.id = token.id ∨ x.tokenHash = token.tokenHash)) = true
  · rw [if_pos hany] at h
    cases h
  · rw [if_neg hany] at h
    refine ⟨(Option.some.inj h).symm, fun x hx heq => ?_⟩
    rw [List.any_eq_true] at hany
    exact hany ⟨x, hx, decide_eq_true (.inl heq)⟩

theorem createUser_eq_some {id : Ulid} {email hash : String} (h : d.createUser id email hash = some d') :
    d' = { d with users := d.users ++ [⟨id, email, some hash, false, false, 0⟩] } ∧
      ∀ u ∈ d.users, u.id ≠ id := by
  unfold createUser at h
  by_cases hany : d.users.any (fun u => decide (u.id = id ∨ u.email = email)) = true
  · rw [if_pos hany] at h
    cases h
  · rw [if_neg hany] at h
    refine ⟨(Option.some.inj h).symm, fun u hu heq => ?_⟩
    rw [List.any_eq_true] at hany
    exact hany ⟨u, hu, decide_eq_true (.inl heq)⟩

end AuthTables

end Hibari
