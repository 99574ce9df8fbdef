import Hibari.Message
import Hibari.Threads
import Hibari.TransitionSystem

/-!
# Presence over several instances

Whether a user is offline, idle or active is kept in Redis: a hash for each
user, with a field for each instance that has a connection of the user, whose
value is how many of them are looked at. The state is derived from the fields of
all instances.

An instance writes its field when its counts change (`syncPresence`), under a
lock that the user shares with others, so that writes are in the order of the
counts. One script writes the field and publishes the new state if it changed.
From time to time the instance writes the fields of all its users again, to keep
them from expiring (`RefreshPresence`). This write takes no lock and publishes
nothing, and what it writes was read earlier.

Time does not pass here: no field expires, and commands do not fail. What may
fail is the database, which has the workspaces to publish to.
-/

namespace Hibari

/-- A user's presence. -/
inductive PresenceState
  | offline
  | idle
  | active
  deriving DecidableEq

/-- How many connections, and how many of them are looked at. -/
structure PresenceCounts where
  conns : ℕ
  active : ℕ
  deriving DecidableEq

/-- A connection: its user, and whether it is looked at. -/
structure PresenceClient where
  userId : Ulid
  active : Bool

/-- What an instance knows: its connections, numbered as they come, and the
counts it announced last of every user that has any. -/
structure Instance where
  records : ℕ → PresenceClient
  next : ℕ
  clients : Finset ℕ
  announced : Finmap (fun _ : Ulid => PresenceCounts)

namespace Instance

/-- A new connection. -/
def connect (x : Instance) (userId : Ulid) : Instance :=
  { x with
    records := Function.update x.records x.next ⟨userId, false⟩
    next := x.next + 1
    clients := insert x.next x.clients }

/-- A connection is gone. -/
def disconnect (x : Instance) (c : ℕ) : Instance := { x with clients := x.clients.erase c }

/-- A connection is looked at, or not any more. -/
def setActivity (x : Instance) (c : ℕ) (active : Bool) : Instance :=
  { x with records := Function.update x.records c { x.records c with active := active } }

/-- The connections of a user. -/
def connections (x : Instance) (userId : Ulid) : Finset ℕ :=
  x.clients.filter fun c => (x.records c).userId = userId

/-- The counts of a user. -/
def counts (x : Instance) (userId : Ulid) : PresenceCounts :=
  ⟨(x.connections userId).card,
    ((x.connections userId).filter fun c => (x.records c).active = true).card⟩

/-- The counts of a user that were announced last. -/
def announcedCounts (x : Instance) (userId : Ulid) : PresenceCounts :=
  (x.announced.lookup userId).getD ⟨0, 0⟩

/-- Note the counts that are to be announced. -/
def announce (x : Instance) (userId : Ulid) (counts : PresenceCounts) : Instance :=
  { x with announced :=
      if 0 < counts.conns then x.announced.insert userId counts else x.announced.erase userId }

end Instance

/-- The number of a user's lock. -/
def stripe (userId : Ulid) : ℕ := userId % 256 % 64

/-- What a field of the hash is, for the counts of an instance. -/
def PresenceCounts.field (counts : PresenceCounts) : Option ℕ :=
  if 0 < counts.conns then some counts.active else none

section State

variable {ι : Type} [Fintype ι] [DecidableEq ι]

/-- The state that the fields of all instances say. -/
def presenceState (fields : ι → Option ℕ) : PresenceState :=
  if ∀ i, fields i = none then .offline
  else if ∃ i, 0 < (fields i).getD 0 then .active
  else .idle

end State

/-- All instances, Redis – the hashes and what was published – and for every
lock of an instance the call that holds it. -/
structure PresenceWorld (ι : Type) where
  instances : ι → Instance
  hash : Ulid → ι → Option ℕ
  published : Ulid → List PresenceState
  locks : ι → ℕ → Option ℕ

namespace PresenceWorld

variable {ι : Type} [Fintype ι] [DecidableEq ι]

/-- An instance changes. -/
def setInstance (w : PresenceWorld ι) (i : ι) (x : Instance) : PresenceWorld ι :=
  { w with instances := Function.update w.instances i x }

/-- A lock of an instance is taken or given back. -/
def setLock (w : PresenceWorld ι) (i : ι) (n : ℕ) (owner : Option ℕ) : PresenceWorld ι :=
  { w with locks := Function.update w.locks i (Function.update (w.locks i) n owner) }

/-- The hash of a user after an instance wrote its field. -/
def written (w : PresenceWorld ι) (i : ι) (userId : Ulid) (counts : PresenceCounts) :
    ι → Option ℕ :=
  Function.update (w.hash userId) i counts.field

/-- Write a field, and publish the state if it changed. -/
def syncScript (w : PresenceWorld ι) (i : ι) (userId : Ulid) (counts : PresenceCounts)
    (announce : Bool) : PresenceWorld ι :=
  { w with
    hash := Function.update w.hash userId (w.written i userId counts)
    published :=
      if presenceState (w.hash userId) ≠ presenceState (w.written i userId counts) ∧ announce then
        Function.update w.published userId
          (w.published userId ++ [presenceState (w.written i userId counts)])
      else w.published }

/-- Write the fields of all users of an instance again. -/
def refreshScript (w : PresenceWorld ι) (i : ι)
    (counts : Finmap (fun _ : Ulid => PresenceCounts)) : PresenceWorld ι :=
  { w with hash := fun userId =>
      match counts.lookup userId with
      | none => w.hash userId
      | some c => Function.update (w.hash userId) i (some c.active) }

end PresenceWorld

/-- Where an operation is. -/
inductive PresenceTask (ι : Type)
  | connect (i : ι) (userId : Ulid)
  | disconnect (i : ι) (c : ℕ)
  | setActivity (i : ι) (c : ℕ) (active : Bool)
  | sync (i : ι) (userId : Ulid)
  | count (i : ι) (userId : Ulid)
  | workspaces (i : ι) (userId : Ulid) (counts : PresenceCounts)
  | write (i : ι) (userId : Ulid) (counts : PresenceCounts) (announce : Bool)
  | refresh (i : ι)
  | rewrite (i : ι) (counts : Finmap (fun _ : Ulid => PresenceCounts))
  | done

/-- Whether an operation is over. -/
def PresenceTask.isDone {ι : Type} : PresenceTask ι → Bool
  | .done => true
  | _ => false

section Step

variable {ι : Type} [Fintype ι] [DecidableEq ι]

/-- The next step of operation `k`. `ok` is whether the database has workspaces
to publish to. -/
def presenceStep (k : ℕ) (ok : Bool) (w : PresenceWorld ι) :
    PresenceTask ι → Option (PresenceWorld ι × PresenceTask ι)
  | .connect i userId =>
    some (w.setInstance i ((w.instances i).connect userId), .sync i userId)
  | .disconnect i c =>
    if c ∈ (w.instances i).clients then
      some (w.setInstance i ((w.instances i).disconnect c),
        .sync i ((w.instances i).records c).userId)
    else some (w, .done)
  | .setActivity i c active =>
    if c ∉ (w.instances i).clients ∨ ((w.instances i).records c).active = active then
      some (w, .done)
    else
      some (w.setInstance i ((w.instances i).setActivity c active),
        .sync i ((w.instances i).records c).userId)
  | .sync i userId =>
    if w.locks i (stripe userId) ≠ none then none
    else some (w.setLock i (stripe userId) (some k), .count i userId)
  | .count i userId =>
    if (w.instances i).counts userId = (w.instances i).announcedCounts userId then
      some (w.setLock i (stripe userId) none, .done)
    else
      some (w.setInstance i ((w.instances i).announce userId ((w.instances i).counts userId)),
        .workspaces i userId ((w.instances i).counts userId))
  | .workspaces i userId counts => some (w, .write i userId counts ok)
  | .write i userId counts announce =>
    some ((w.syncScript i userId counts announce).setLock i (stripe userId) none, .done)
  | .refresh i => some (w, .rewrite i (w.instances i).announced)
  | .rewrite i counts => some (w.refreshScript i counts, .done)
  | .done => none

/-- **The steps of an operation**, by what they do. -/
inductive PresenceMoves (k : ℕ) (w : PresenceWorld ι) :
    PresenceTask ι → PresenceWorld ι → PresenceTask ι → Prop
  | connect (i userId) : PresenceMoves k w (.connect i userId)
      (w.setInstance i ((w.instances i).connect userId)) (.sync i userId)
  | disconnect (i c) (hmem : c ∈ (w.instances i).clients) : PresenceMoves k w (.disconnect i c)
      (w.setInstance i ((w.instances i).disconnect c))
      (.sync i ((w.instances i).records c).userId)
  | notDisconnected (i c) : PresenceMoves k w (.disconnect i c) w .done
  | setActivity (i c active) : PresenceMoves k w (.setActivity i c active)
      (w.setInstance i ((w.instances i).setActivity c active))
      (.sync i ((w.instances i).records c).userId)
  | sameActivity (i c active) : PresenceMoves k w (.setActivity i c active) w .done
  | sync (i userId) (hfree : w.locks i (stripe userId) = none) : PresenceMoves k w (.sync i userId)
      (w.setLock i (stripe userId) (some k)) (.count i userId)
  | same (i userId)
      (hsame : (w.instances i).counts userId = (w.instances i).announcedCounts userId) :
      PresenceMoves k w (.count i userId) (w.setLock i (stripe userId) none) .done
  | count (i userId) : PresenceMoves k w (.count i userId)
      (w.setInstance i ((w.instances i).announce userId ((w.instances i).counts userId)))
      (.workspaces i userId ((w.instances i).counts userId))
  | workspaces (i userId counts ok) :
      PresenceMoves k w (.workspaces i userId counts) w (.write i userId counts ok)
  | write (i userId counts announce) : PresenceMoves k w (.write i userId counts announce)
      ((w.syncScript i userId counts announce).setLock i (stripe userId) none) .done
  | refresh (i) : PresenceMoves k w (.refresh i) w (.rewrite i (w.instances i).announced)
  | rewrite (i counts) : PresenceMoves k w (.rewrite i counts) (w.refreshScript i counts) .done

/-- A step is one of these. -/
theorem presenceMoves_of_step {k : ℕ} {ok : Bool} {w w' : PresenceWorld ι}
    {t t' : PresenceTask ι} (h : presenceStep k ok w t = some (w', t')) :
    PresenceMoves k w t w' t' := by
  cases t with
  | connect i userId =>
    cases h
    exact .connect i userId
  | disconnect i c =>
    simp only [presenceStep] at h
    split at h <;> cases h
    · next hmem => exact .disconnect i c hmem
    · exact .notDisconnected i c
  | setActivity i c active =>
    simp only [presenceStep] at h
    split at h <;> cases h
    · exact .sameActivity i c active
    · exact .setActivity i c active
  | sync i userId =>
    simp only [presenceStep, ne_eq, ite_not] at h
    split at h
    · next hfree =>
      cases h
      exact .sync i userId hfree
    · cases h
  | count i userId =>
    simp only [presenceStep] at h
    split at h <;> cases h
    · next hsame => exact .same i userId hsame
    · exact .count i userId
  | workspaces i userId counts =>
    cases h
    exact .workspaces i userId counts ok
  | write i userId counts announce =>
    cases h
    exact .write i userId counts announce
  | refresh i =>
    cases h
    exact .refresh i
  | rewrite i counts =>
    cases h
    exact .rewrite i counts
  | done => exact absurd h (by simp [presenceStep])

end Step

/-! ## Runs -/

/-- All instances and what they are doing. -/
structure PresenceSystemState (ι : Type) where
  world : PresenceWorld ι
  tasks : List (PresenceTask ι)

/-- What happens: an operation begins, or takes a step. -/
inductive PresenceAction (ι : Type)
  | connect (i : ι) (userId : Ulid)
  | disconnect (i : ι) (c : ℕ)
  | setActivity (i : ι) (c : ℕ) (active : Bool)
  | refresh (i : ι)
  | advance (k : ℕ) (ok : Bool)

/-- Where an operation begins. -/
def PresenceAction.start {ι : Type} : PresenceAction ι → Option (PresenceTask ι)
  | .connect i userId => some (.connect i userId)
  | .disconnect i c => some (.disconnect i c)
  | .setActivity i c active => some (.setActivity i c active)
  | .refresh i => some (.refresh i)
  | .advance _ _ => none

section System

variable {ι : Type} [Fintype ι] [DecidableEq ι]

/-- One step of the instances. -/
def PresenceSystemState.step (s : PresenceSystemState ι) :
    PresenceAction ι → Option (PresenceSystemState ι)
  | .advance k ok =>
    (Threads.stepAt (presenceStep k ok) s.world s.tasks k).map fun next => ⟨next.1, next.2⟩
  | a => a.start.map fun t => { s with tasks := s.tasks ++ [t] }

/-- **What a step of the instances is**: an operation begins, or one takes a
step. -/
inductive PresenceHappens (s : PresenceSystemState ι) :
    PresenceAction ι → PresenceSystemState ι → Prop
  | begins {a t} (ht : a.start = some t) : PresenceHappens s a { s with tasks := s.tasks ++ [t] }
  | advances {k ok t t' w} (ht : s.tasks[k]? = some t) (hmove : PresenceMoves k s.world t w t') :
    PresenceHappens s (.advance k ok) ⟨w, s.tasks.set k t'⟩

theorem presenceHappens_of_step {s s' : PresenceSystemState ι} {a : PresenceAction ι}
    (h : s.step a = some s') : PresenceHappens s a s' := by
  cases a with
  | advance =>
    obtain ⟨⟨w, tasks⟩, hstep, rfl⟩ := Option.map_eq_some_iff.mp h
    obtain ⟨t, t', ht, hmove, rfl⟩ := Threads.stepAt_eq_some hstep
    exact .advances ht (presenceMoves_of_step hmove)
  | _ =>
    cases h
    exact .begins rfl

/-- An instance without connections. -/
def Instance.new : Instance := ⟨fun _ => ⟨0, false⟩, 0, ∅, ∅⟩

/-- Instances without connections, and an empty Redis. -/
def PresenceSystemState.new : PresenceSystemState ι :=
  ⟨⟨fun _ => Instance.new, fun _ _ => none, fun _ => [], fun _ _ => none⟩, []⟩

variable (ι) in
/-- **Presence as a transition system**: any operations of any instances, and
any interleaving of their steps. -/
def presenceSystem : TransitionSystem (PresenceSystemState ι) (PresenceAction ι) where
  init s := s = PresenceSystemState.new
  step := PresenceSystemState.step

end System

end Hibari
