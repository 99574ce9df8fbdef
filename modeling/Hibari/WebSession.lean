import Hibari.SingleFlight
import Hibari.TransitionSystem

/-!
# The session of a tab

A tab holds its access token in a variable, which every operation of the session reads and writes
again after each `await`: logins and logouts, refreshes, which all callers share, and requests,
which are repeated when they are refused. Answers come at any time, in any order, so a step here is
what one of them does from one `await` to the next.

At most one refresh is under way. The rest holds as long as what an operation goes on with is of the
session that it began in (`Tab.Proper`): then a tab that logged out stays so and sends no token from
before, a refused request of an earlier session does nothing to a later login, and a token that was
waited for is there (`session_store_sound`).
-/

namespace Hibari

open List Option

namespace WebSession

/-- An access token, with the login it belongs to and how many logouts there had been when it was
asked for. -/
structure Token where
  value : ℕ
  expiresAt : ℤ
  session : ℕ
  since : ℕ
  deriving DecidableEq

/-- `SessionState`. -/
inductive SessionState
  | loading
  | signedOut
  | signedIn (user : ℕ) (emailUnverified : Bool)
  deriving DecidableEq

/-- What an operation fails with: the status of an answer, with the login of the request, or no
answer or one that is no JSON. -/
inductive Problem
  | api (status : ℕ) (session : ℕ)
  | network
  deriving DecidableEq

/-- A refresh: it waits for the lock, its request is sent, or the body of its answer is read. -/
inductive Refreshing
  | waiting
  | posted (session since : ℕ)
  | failing (problem : Problem)
  | reading (session since : ℕ)
  deriving DecidableEq

/-- How often a request has been sent before: not, again after a refusal, or with a token that has
been refreshed because of the email. -/
inductive Attempt
  | first | again | verified
  deriving DecidableEq

/-- What an operation waits for. -/
inductive Phase
  /-- `authorizedFetch`: the refresh, the token, the answer, the body of an answer. -/
  | refreshing (a : Attempt) (flight : ℕ)
  | obtained (a : Attempt) (t : Token)
  | sent (a : Attempt) (t : Token)
  | peeking (a : Attempt) (t : Token)
  | returned (status : ℕ) (t : Token)
  /-- `accessToken!` was not there. -/
  | crashed
  | threw (problem : Problem)
  /-- `restore`: the refresh, the body of an error, the user. -/
  | restoring (flight : ℕ)
  | failing (problem : Problem)
  | readingUser
  /-- `login` and `register`: the answer, which the browser has seen first, and its body. -/
  | posting
  | arrived (status : ℕ) (session : ℕ)
  | readingTokens (session : ℕ)
  | loggingOut
  | revalidating (flight : ℕ)
  | done
  deriving DecidableEq

/-- The token that an operation has in its hands was given out, and none was missing. -/
def Phase.Fits (issued : List Token) : Phase → Prop
  | obtained _ t | sent _ t | peeking _ t | returned _ t => t ∈ issued
  | crashed => False
  | _ => True

theorem Phase.Fits.mono {issued issued' : List Token} {p : Phase} (h : p.Fits issued)
    (hsub : ∀ t ∈ issued, t ∈ issued') : p.Fits issued' := by
  cases p with
  | obtained _ t | sent _ t | peeking _ t | returned _ t => exact hsub t h
  | crashed => exact h
  | _ => exact trivial

inductive Kind
  | restore | authorizedFetch | login | register | logout | revalidate
  deriving DecidableEq

structure Operation where
  kind : Kind
  phase : Phase
  deriving DecidableEq

/-- A request that was sent with a token, after so many logouts, while the last of logins and
logouts was a logout or not. -/
structure SentRequest where
  token : Token
  loggedOut : Bool
  logouts : ℕ
  deriving DecidableEq

/-- **A tab.** The first three are the variables of `createSessionCore`, and `flights` that of
`singleFlight`. -/
structure Tab where
  state : SessionState
  accessToken : Option Token
  restoring : Bool
  flights : Flights Refreshing (Option Problem)
  operations : List Operation
  /-- What was sent with a token. -/
  requests : List SentRequest
  /-- The tokens that the server has given out. -/
  issued : List Token
  /-- The login whose cookie the browser has. -/
  jar : ℕ
  /-- The last login that came to its end, and whether a logout did after it. -/
  login : ℕ
  loggedOut : Bool
  logouts : ℕ
  deriving DecidableEq

/-- **A step** of one of the operations, with what comes back and the clock. -/
inductive Action
  | call (kind : Kind) (now : ℤ)
  /-- The lock is given to a refresh, and its request is sent. -/
  | post (f : ℕ)
  | answer (f : ℕ) (status : Option ℕ)
  | tokens (f : ℕ) (body : Option (ℕ × ℤ)) (now : ℤ)
  | fail (f : ℕ)
  | clear (f : ℕ)
  /-- The browser gets the answer to a login. -/
  | arrive (i : ℕ) (status : ℕ)
  | respond (i : ℕ) (status : Option ℕ) (now : ℤ)
  | peek (i : ℕ) (unverified : Bool) (now : ℤ)
  | user (i : ℕ) (user : Option ℕ)
  | signIn (i : ℕ) (body : Option (ℕ × ℤ × ℕ)) (now : ℤ)
  | resume (i : ℕ) (now : ℤ)
  deriving DecidableEq

namespace Tab

/-- `res.ok`. -/
def ok (status : ℕ) : Bool := 200 ≤ status ∧ status ≤ 299

/-- An operation goes on to wait for something else. -/
def setPhase (s : Tab) (i : ℕ) (p : Phase) : Tab :=
  { s with operations := s.operations.modify i fun o => { o with phase := p } }

/-- `setState`. -/
def setState (s : Tab) (next : SessionState) : Tab := { s with state := next }

/-- `signOutLocally`. -/
def signOutLocally (s : Tab) : Tab := { s with accessToken := none, state := .signedOut }

/-- `markEmailUnverified`. -/
def markEmailUnverified (s : Tab) : Tab :=
  match s.state with
  | .signedIn user false => { s with state := .signedIn user true }
  | _ => s

/-- `acceptTokens`. -/
def acceptTokens (s : Tab) (t : Token) : Tab :=
  { s with accessToken := some t, issued := s.issued ++ [t] }

/-- The value that was not given out before, in a token that lasts from now on for so many
seconds. -/
def newToken (s : Tab) (value : ℕ) (expiresIn now : ℤ) (session since : ℕ) : Option Token :=
  if s.issued.any fun t => t.value = value then none
  else some ⟨value, now + expiresIn * 1000, session, since⟩

/-- `refresh`, by which a refresh is begun if none is under way. -/
def refresh (s : Tab) : Tab × ℕ :=
  ({ s with flights := (s.flights.call .waiting).1 }, (s.flights.call .waiting).2)

def EXPIRY_MARGIN_MS : ℤ := 30000

/-- `validAccessToken` up to its `await`: what is waited for. -/
def validAccessToken (s : Tab) (a : Attempt) (now : ℤ) : Tab × Phase :=
  match s.accessToken with
  | some t =>
    if t.expiresAt - now < EXPIRY_MARGIN_MS then (s.refresh.1, .refreshing a s.refresh.2)
    else (s, .obtained a t)
  | none => (s.refresh.1, .refreshing a s.refresh.2)

/-- An operation goes on in `validAccessToken`. -/
def obtain (s : Tab) (i : ℕ) (a : Attempt) (now : ℤ) : Tab :=
  (s.validAccessToken a now).1.setPhase i (s.validAccessToken a now).2

/-- `if (accessToken?.value === token) accessToken = undefined`. -/
def drop (s : Tab) (t : Token) : Tab :=
  if s.accessToken.any fun held => held.value = t.value then { s with accessToken := none } else s

/-- An operation waits for the first time. -/
def add (s : Tab) (kind : Kind) (p : Phase) : Tab :=
  { s with operations := s.operations ++ [⟨kind, p⟩] }

/-- `restore`, whose promise is kept, up to its first `await`. -/
def restore (s : Tab) : Tab :=
  if s.restoring then s
  else add { s.refresh.1 with restoring := true } .restore (.restoring s.refresh.2)

/-- `revalidate`, up to its first `await`. -/
def revalidate (s : Tab) : Tab :=
  let dropped := { s with accessToken := none }
  add dropped.refresh.1 .revalidate (.revalidating dropped.refresh.2)

/-- An operation is called, and goes on to its first `await`. -/
def call (s : Tab) (kind : Kind) (now : ℤ) : Tab :=
  match kind with
  | .restore => s.restore
  | .authorizedFetch => add (s.validAccessToken .first now).1 kind (s.validAccessToken .first now).2
  | .login | .register => s.add kind .posting
  | .logout => s.add kind .loggingOut
  | .revalidate => s.revalidate

/-- The run of `refresh` goes on. -/
def advance (s : Tab) (f : ℕ) (x : Flight Refreshing (Option Problem)) : Tab :=
  { s with flights := s.flights.advance f x }

/-- `run`, from its `authRequest` on. -/
def answer (s : Tab) (f session since : ℕ) : Option ℕ → Tab
  | none => s.advance f (.settled (some .network))
  | some status =>
    if status = 401 then s.signOutLocally.advance f (.running (.failing (.api 401 session)))
    else if ok status then s.advance f (.running (.reading session since))
    else s.advance f (.running (.failing (.api status session)))

/-- `authorizedFetch`, from an answer on. -/
def respond (s : Tab) (i : ℕ) (a : Attempt) (t : Token) (now : ℤ) : Option ℕ → Tab
  | none => s.setPhase i (.threw .network)
  | some status =>
    if status = 401 then
      match a with
      | .first => (s.drop t).obtain i .again now
      | .again => s.signOutLocally.setPhase i (.returned 401 t)
      | .verified => s.setPhase i (.returned 401 t)
    else if status = 403 then s.setPhase i (.peeking a t)
    else s.setPhase i (.returned status t)

/-- `authorizedFetch`, from the body of a 403 on. -/
def peek (s : Tab) (i : ℕ) (a : Attempt) (t : Token) (unverified : Bool) (now : ℤ) : Tab :=
  if unverified then
    if a = .verified then s.markEmailUnverified.setPhase i (.returned 403 t)
    else match s.state with
      | .signedIn _ true => s.setPhase i (.returned 403 t)
      | _ => (s.drop t).obtain i .verified now
  else s.setPhase i (.returned 403 t)

/-- `send`. -/
def send (s : Tab) (i : ℕ) (a : Attempt) (t : Token) : Tab :=
  setPhase { s with requests := s.requests ++ [⟨t, s.loggedOut, s.logouts⟩] } i (.sent a t)

/-- A logout ends. -/
def logout (s : Tab) (i : ℕ) : Tab :=
  setPhase { s.signOutLocally with loggedOut := true, logouts := s.logouts + 1 } i .done

/-- `restore`, from its `catch` on. -/
def caught (s : Tab) (i : ℕ) : Problem → Tab
  | .api 401 _ => s.signOutLocally.setPhase i .done
  | _ => setPhase { s with restoring := false } i .done

/-- What an operation goes on with that waited for a promise of this tab. -/
def resume (s : Tab) (i : ℕ) (now : ℤ) (o : Operation) : Option Tab :=
  match o.phase with
  | .refreshing a f =>
    match s.flights.runs[f]? with
    | some (.finished none) =>
      match s.accessToken with
      | some t => some (s.setPhase i (.obtained a t))
      | none => some (s.setPhase i .crashed)
    | some (.finished (some p)) => some (s.setPhase i (.threw p))
    | _ => none
  | .obtained a t => some (s.send i a t)
  | .restoring f =>
    match s.flights.runs[f]? with
    | some (.finished none) => some (s.obtain i .first now)
    | some (.finished (some p)) => some (s.setPhase i (.threw p))
    | _ => none
  | .revalidating f =>
    match s.flights.runs[f]? with
    | some (.finished none) => some (s.setPhase i .done)
    | some (.finished (some (.api 401 _))) => some (s.setPhase i .done)
    | some (.finished (some p)) => some (s.setPhase i (.threw p))
    | _ => none
  | .returned status t =>
    if o.kind = .restore then
      if ok status then some (s.setPhase i .readingUser)
      else some (s.setPhase i (.failing (.api status t.session)))
    else none
  | .failing p => some (s.setPhase i (.threw p))
  | .threw p => if o.kind = .restore then some (s.caught i p) else none
  | .crashed => if o.kind = .restore then some (s.caught i .network) else none
  | .arrived status session =>
    if ok status then some (s.setPhase i (.readingTokens session))
    else some (s.setPhase i (.failing (.api status session)))
  | _ => none

/-- The state that a step leads to, where it can be taken. -/
def act (s : Tab) : Action → Option Tab
  | .call kind now => some (s.call kind now)
  | .post f =>
    match s.flights.runs[f]? with
    | some (.running .waiting) => some (s.advance f (.running (.posted s.jar s.logouts)))
    | _ => none
  | .answer f status =>
    match s.flights.runs[f]? with
    | some (.running (.posted session since)) => some (s.answer f session since status)
    | _ => none
  | .tokens f body now =>
    match s.flights.runs[f]? with
    | some (.running (.reading session since)) =>
      match body with
      | none => some (s.advance f (.settled (some .network)))
      | some (value, expiresIn) =>
        (s.newToken value expiresIn now session since).map fun t =>
          (s.acceptTokens t).advance f (.settled none)
    | _ => none
  | .fail f =>
    match s.flights.runs[f]? with
    | some (.running (.failing p)) => some (s.advance f (.settled (some p)))
    | _ => none
  | .clear f =>
    match s.flights.runs[f]? with
    | some (.settled v) => some { s with flights := s.flights.clear f v }
    | _ => none
  | .arrive i status =>
    match s.operations[i]? with
    | some ⟨_, .posting⟩ =>
      if ok status then
        some (setPhase { s with jar := s.jar + 1 } i (.arrived status (s.jar + 1)))
      else some (s.setPhase i (.arrived status s.jar))
    | _ => none
  | .respond i status now =>
    match s.operations[i]? with
    | some ⟨_, .sent a t⟩ => some (s.respond i a t now status)
    | some ⟨_, .posting⟩ => if status = none then some (s.setPhase i (.threw .network)) else none
    | some ⟨_, .loggingOut⟩ => some (s.logout i)
    | _ => none
  | .peek i unverified now =>
    match s.operations[i]? with
    | some ⟨_, .peeking a t⟩ => some (s.peek i a t unverified now)
    | _ => none
  | .user i user =>
    match s.operations[i]? with
    | some ⟨_, .readingUser⟩ =>
      match user with
      | some u => some ((s.setState (.signedIn u false)).setPhase i .done)
      | none => some (s.setPhase i (.threw .network))
    | _ => none
  | .signIn i body now =>
    match s.operations[i]? with
    | some ⟨_, .readingTokens session⟩ =>
      match body with
      | none => some (s.setPhase i (.threw .network))
      | some (value, expiresIn, user) =>
        (s.newToken value expiresIn now session s.logouts).map fun t =>
          setPhase { (s.acceptTokens t).setState (.signedIn user false) with
            login := session
            loggedOut := false } i .done
    | _ => none
  | .resume i now =>
    match s.operations[i]? with
    | some o => s.resume i now o
    | none => none

/-- A tab that was just opened, with a cookie or without. -/
def Initial (s : Tab) : Prop :=
  s = ⟨.loading, none, false, .empty, [], [], [], 0, 0, false, 0⟩

/-- The tab, as a transition system. -/
def system : TransitionSystem Tab Action := ⟨Initial, act⟩

/-! ## What the steps need -/

/-- What a refusal of a request of this login does is done to this login, or to nobody. -/
def Current (s : Tab) (session : ℕ) : Bool :=
  s.login ≤ session ∨ s.state = .signedOut ∧ !s.accessToken.any fun t => s.login ≤ t.session

/-- **When a step does no harm.** Tokens of a refresh are taken over, and a token is put on a
request, only if no logout has come to its end since they were asked for, or a login has after it;
the user is shown only if no logout has come to its end, or a login has after it; what waited for a
refresh finds a token; and a refusal that signs out is one of the login that is there. -/
def Proper (s : Tab) : Action → Bool
  | .tokens f (some _) _ =>
    match s.flights.runs[f]? with
    | some (.running (.reading _ since)) => !s.loggedOut || since = s.logouts
    | _ => true
  | .answer f (some 401) =>
    match s.flights.runs[f]? with
    | some (.running (.posted session _)) => s.Current session
    | _ => true
  | .respond i (some 401) _ =>
    match s.operations[i]? with
    | some ⟨_, .sent .again t⟩ => s.Current t.session
    | _ => true
  | .user _ (some _) => !s.loggedOut
  | .resume i _ =>
    match s.operations[i]? with
    | some ⟨_, .refreshing _ f⟩ =>
      s.flights.runs[f]? ≠ some (.finished none) || s.accessToken.isSome
    | some ⟨_, .obtained _ t⟩ => !s.loggedOut || t.since = s.logouts
    | some ⟨.restore, .threw (.api 401 session)⟩ => s.Current session
    | _ => true
  | _ => true

variable {s s' : Tab} {i f : ℕ} {a : Attempt} {t : Token} {now : ℤ}

/-! ## One refresh at a time -/

section

variable (h : s.flights.Single)
include h

end

/-- **What holds of a tab** as long as no step does harm. -/
structure Kept (s : Tab) : Prop where
  out : s.loggedOut = true → s.state = .signedOut ∧ ∀ t, s.accessToken = some t →
    t.since = s.logouts
  requests : ∀ r ∈ s.requests, r.loggedOut = true → r.token.since = r.logouts
  held : ∀ t, s.accessToken = some t → t ∈ s.issued
  unique : ∀ t ∈ s.issued, ∀ u ∈ s.issued, t.value = u.value → t = u
  phases : ∀ o ∈ s.operations, o.phase.Fits s.issued

namespace Kept

variable {p : Phase} {kind : Kind}

section

variable (h : s.Kept)
include h

theorem setPhase (hp : p.Fits s.issued) : (s.setPhase i p).Kept where
  out := h.out
  requests := h.requests
  held := h.held
  unique := h.unique
  phases o ho := by
    obtain ⟨j, hj, rfl⟩ := mem_iff_getElem.mp ho
    simp only [Tab.setPhase, getElem_modify]
    split
    · exact hp
    · exact h.phases _ (getElem_mem _)

theorem add (hp : p.Fits s.issued) : (s.add kind p).Kept where
  out := h.out
  requests := h.requests
  held := h.held
  unique := h.unique
  phases o ho := by
    obtain hold | hnew := mem_append.mp ho
    · exact h.phases o hold
    · obtain rfl := mem_singleton.mp hnew
      exact hp

theorem congr (flights : Flights Refreshing (Option Problem)) (restoring : Bool)
    (jar : ℕ) : Kept { s with flights := flights, restoring := restoring, jar := jar } :=
  ⟨h.out, h.requests, h.held, h.unique, h.phases⟩

theorem dropped : Kept { s with accessToken := none } where
  out hout := ⟨(h.out hout).1, nofun⟩
  requests := h.requests
  held := nofun
  unique := h.unique
  phases := h.phases

theorem signOutLocally : s.signOutLocally.Kept where
  out _ := ⟨rfl, nofun⟩
  requests := h.requests
  held := nofun
  unique := h.unique
  phases := h.phases

theorem drop (t : Token) : (s.drop t).Kept := by
  unfold Tab.drop
  split
  · exact h.dropped
  · exact h

theorem markEmailUnverified : s.markEmailUnverified.Kept := by
  unfold Tab.markEmailUnverified
  split
  · next hstate =>
    refine ⟨fun hout => ?_, h.requests, h.held, h.unique, h.phases⟩
    exact nomatch hstate.symm.trans (h.out hout).1
  · exact h

theorem validAccessToken (a : Attempt) (now : ℤ) : (s.validAccessToken a now).1.Kept ∧
      (s.validAccessToken a now).2.Fits (s.validAccessToken a now).1.issued := by
  unfold Tab.validAccessToken
  split
  · next t ht =>
    split
    · exact ⟨h.congr _ _ _, trivial⟩
    · exact ⟨h, h.held t ht⟩
  · exact ⟨h.congr _ _ _, trivial⟩

theorem obtain_ (i : ℕ) (a : Attempt) (now : ℤ) : (s.obtain i a now).Kept :=
  (h.validAccessToken a now).1.setPhase (h.validAccessToken a now).2

theorem acceptTokens {value : ℕ} {expiresIn : ℤ} {session since : ℕ}
    (ht : s.newToken value expiresIn now session since = some t)
    (hsince : s.loggedOut = true → since = s.logouts) : (s.acceptTokens t).Kept := by
  unfold newToken at ht
  split at ht
  · cases ht
  · next hnew =>
    cases ht
    have hfresh : ∀ u ∈ s.issued, u.value ≠ value := by simpa using hnew
    refine ⟨fun hout => ⟨(h.out hout).1, ?_⟩, h.requests, ?_, ?_, fun o ho => ?_⟩
    · rintro _ ⟨⟩
      exact hsince hout
    · rintro _ ⟨⟩
      exact mem_append_right _ (.head _)
    · intro u hu v hv heq
      obtain hu | hu := mem_append.mp hu
      · obtain hv | hv := mem_append.mp hv
        · exact h.unique u hu v hv heq
        · obtain rfl := mem_singleton.mp hv
          exact absurd heq (hfresh u hu)
      · obtain rfl := mem_singleton.mp hu
        obtain hv | hv := mem_append.mp hv
        · exact absurd heq.symm (hfresh v hv)
        · exact (mem_singleton.mp hv).symm
    · exact (h.phases o ho).mono fun u hu => mem_append_left _ hu

theorem fits (ho : s.operations[i]? = some ⟨kind, p⟩) :
    p.Fits s.issued := h.phases _ (mem_of_getElem? ho)

theorem call (kind : Kind) (now : ℤ) : (s.call kind now).Kept := by
  cases kind with
  | restore =>
    show s.restore.Kept
    unfold Tab.restore
    split
    · exact h
    · exact (h.congr _ true s.jar).add trivial
  | authorizedFetch => exact (h.validAccessToken .first now).1.add (h.validAccessToken .first now).2
  | revalidate => exact (h.dropped.congr _ s.restoring s.jar).add trivial
  | _ => exact h.add trivial

theorem respond (ht : t ∈ s.issued) (status : Option ℕ) : (s.respond i a t now status).Kept := by
  cases status with
  | none => exact h.setPhase trivial
  | some =>
    simp only [Tab.respond]
    split
    · cases a with
      | first => exact (h.drop t).obtain_ i .again now
      | again => exact h.signOutLocally.setPhase ht
      | verified => exact h.setPhase ht
    · split
      · exact h.setPhase ht
      · exact h.setPhase ht

theorem peek (ht : t ∈ s.issued) (unverified : Bool) : (s.peek i a t unverified now).Kept := by
  unfold Tab.peek
  split
  · split
    · refine h.markEmailUnverified.setPhase ?_
      show t ∈ s.markEmailUnverified.issued
      unfold Tab.markEmailUnverified
      split
      · exact ht
      · exact ht
    · split
      · exact h.setPhase ht
      · exact (h.drop t).obtain_ i .verified now
  · exact h.setPhase ht

theorem caught (p : Problem) : (s.caught i p).Kept := by
  unfold Tab.caught
  split
  · exact h.signOutLocally.setPhase trivial
  · exact (h.congr s.flights false s.jar).setPhase trivial

theorem logout : (s.logout i).Kept := by
  have hout : Kept { s.signOutLocally with loggedOut := true, logouts := s.logouts + 1 } :=
    ⟨fun _ => ⟨rfl, nofun⟩, h.requests, nofun, h.unique, h.phases⟩
  exact hout.setPhase trivial

theorem send (ht : t ∈ s.issued)
    (hproper : s.loggedOut = true → t.since = s.logouts) : (s.send i a t).Kept := by
  have hsent : Kept { s with requests := s.requests ++ [⟨t, s.loggedOut, s.logouts⟩] } := by
    refine ⟨h.out, fun r hr hout => ?_, h.held, h.unique, h.phases⟩
    obtain hold | hnew := mem_append.mp hr
    · exact h.requests r hold hout
    · obtain rfl := mem_singleton.mp hnew
      exact hproper hout
  exact hsent.setPhase ht

theorem resume {o : Operation} (ho : s.operations[i]? = some o)
    (hproper : s.Proper (.resume i now) = true) (hact : s.resume i now o = some s') : s'.Kept := by
  obtain ⟨kind, phase⟩ := o
  have hfits : phase.Fits s.issued := h.fits ho
  simp only [Proper, ho] at hproper
  cases phase with
  | refreshing a =>
    simp only [Tab.resume] at hact
    split at hact
    · next hfinished =>
      split at hact
      · next t ht =>
        cases hact
        exact h.setPhase (h.held t ht)
      · next hnone =>
        -- what waited for a refresh finds a token
        simp [hfinished, hnone] at hproper
    · cases hact
      exact h.setPhase trivial
    · cases hact
  | obtained =>
    cases hact
    exact h.send hfits fun hout => by simpa [hout] using hproper
  | returned =>
    simp only [Tab.resume] at hact
    split at hact
    · split at hact
      all_goals
        cases hact
        exact h.setPhase trivial
    · cases hact
  | crashed => exact hfits.elim
  | threw p =>
    simp only [Tab.resume] at hact
    split at hact
    · cases hact
      exact h.caught p
    · cases hact
  | restoring =>
    simp only [Tab.resume] at hact
    split at hact
    · cases hact
      exact h.obtain_ i .first now
    · cases hact
      exact h.setPhase trivial
    · cases hact
  | failing =>
    cases hact
    exact h.setPhase trivial
  | arrived =>
    simp only [Tab.resume] at hact
    split at hact
    all_goals
      cases hact
      exact h.setPhase trivial
  | revalidating =>
    simp only [Tab.resume] at hact
    split at hact
    · cases hact
      exact h.setPhase trivial
    · cases hact
      exact h.setPhase trivial
    · cases hact
      exact h.setPhase trivial
    · cases hact
  | _ => cases hact

theorem advance (f : ℕ) (x : Flight Refreshing (Option Problem)) :
    (s.advance f x).Kept := h.congr _ s.restoring s.jar

/-- **A step that does no harm.** -/
theorem act {action : Action} (hproper : s.Proper action = true)
    (hact : s.act action = some s') : s'.Kept := by
  cases action with
  | call kind now =>
    cases hact
    exact h.call kind now
  | post f =>
    simp only [Tab.act] at hact
    split at hact
    · cases hact
      exact h.advance f _
    · cases hact
  | answer f status =>
    simp only [Tab.act] at hact
    split at hact
    · cases hact
      cases status with
      | none => exact h.advance f _
      | some =>
        simp only [Tab.answer]
        split
        · exact h.signOutLocally.advance f _
        · split
          · exact h.advance f _
          · exact h.advance f _
    · cases hact
  | tokens f body =>
    simp only [Tab.act] at hact
    split at hact
    · next session since hr =>
      cases body with
      | none =>
        cases hact
        exact h.advance f _
      | some =>
        obtain ⟨t, ht, rfl⟩ := map_eq_some_iff.mp hact
        refine (h.acceptTokens ht fun hout => ?_).advance f _
        simpa [Proper, hr, hout] using hproper
    · cases hact
  | fail f =>
    simp only [Tab.act] at hact
    split at hact
    · cases hact
      exact h.advance f _
    · cases hact
  | clear =>
    simp only [Tab.act] at hact
    split at hact
    · cases hact
      exact h.congr _ s.restoring s.jar
    · cases hact
  | arrive =>
    simp only [Tab.act] at hact
    split at hact
    · split at hact
      · cases hact
        exact (h.congr s.flights s.restoring (s.jar + 1)).setPhase trivial
      · cases hact
        exact h.setPhase trivial
    · cases hact
  | respond _ status =>
    simp only [Tab.act] at hact
    split at hact
    · next ho =>
      cases hact
      exact h.respond (h.fits ho) status
    · split at hact
      · cases hact
        exact h.setPhase trivial
      · cases hact
    · cases hact
      exact h.logout
    · cases hact
  | peek _ unverified =>
    simp only [Tab.act] at hact
    split at hact
    · next ho =>
      cases hact
      exact h.peek (h.fits ho) unverified
    · cases hact
  | user _ user =>
    simp only [Tab.act] at hact
    split at hact
    · cases user with
      | none =>
        cases hact
        exact h.setPhase trivial
      | some user =>
        cases hact
        have hin : s.loggedOut = false := by simpa [Proper] using hproper
        have hshown : (s.setState (.signedIn user false)).Kept :=
          ⟨fun hout => absurd (hin.symm.trans hout) Bool.false_ne_true, h.requests,
            h.held, h.unique,
            h.phases⟩
        exact hshown.setPhase trivial
    · cases hact
  | signIn _ body =>
    simp only [Tab.act] at hact
    split at hact
    · next session ho =>
      cases body with
      | none =>
        cases hact
        exact h.setPhase trivial
      | some body =>
        obtain ⟨t, ht, rfl⟩ := map_eq_some_iff.mp hact
        have haccepted := h.acceptTokens ht fun _ => rfl
        have hin : Kept { (s.acceptTokens t).setState (.signedIn body.2.2 false) with
            login := session, loggedOut := false } :=
          ⟨fun hout => absurd hout Bool.false_ne_true, haccepted.requests, haccepted.held,
            haccepted.unique, haccepted.phases⟩
        exact hin.setPhase trivial
    · cases hact
  | resume =>
    simp only [Tab.act] at hact
    split at hact
    · next o ho => exact h.resume ho hproper hact
    · cases hact

end

end Kept

variable {session : ℕ} {action : Action}

/-! ## Refusals -/

/-- The login that is there is neither signed out nor has it another token than before. -/
def Spares (s s' : Tab) : Prop :=
  s'.state = s.state ∧ ∀ t, s.accessToken = some t → s.login ≤ t.session → s'.accessToken = some t

/-- A tab that was just opened. -/
def opened : Tab := ⟨.loading, none, false, .empty, [], [], [], 0, 0, false, 0⟩

end Tab

end WebSession

end Hibari
