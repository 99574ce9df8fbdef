import Hibari.Message

/-!
# Who is in a huddle: the scripts

Who is in which huddle is kept in Redis, in five structures: the participations
of each huddle, the deadlines of their heartbeats in one sorted set, for each user
the participation it has, for each workspace the users that are in a huddle, and for
each of these users where the mark was set and what is to be published when it goes.
A huddle also has a version, which grows with every change, and the users who said
that they will join soon.

Every change is one script, which Redis runs as a whole, so a script is a function
here. Keys that expire after a day are a safety net of the source and never expire
here. The record of a participation is kept as what its JSON says; the fields that
no script reads are left out.
-/

namespace Hibari

/-- A participation: its huddle, its user, and what the huddle shows of it. A
camera or screen that is not shared is the empty string. -/
structure Participation where
  id : Ulid
  huddleId : Ulid
  userId : Ulid
  cameraMid : String
  screenMid : String
  muted : Bool
  joinedAt : ℕ
  deriving DecidableEq

/-- Where a user is marked as in a huddle, whom to tell, and what to publish when
the mark is set and when it goes. The names of channels are not empty and have no
blanks in them: the scripts get them in one string. -/
structure HuddleStatus where
  workspaceId : Ulid
  channels : List String
  joined : String
  left : String
  deriving DecidableEq

/-- The mark that is set: where, whom to tell when it goes, and with what. -/
structure HuddleMark where
  ws : Ulid
  ch : List String
  off : String
  deriving DecidableEq

/-- What was published: that a user of a workspace is in a huddle, or is not any
more. -/
structure HuddleNotice where
  workspaceId : Ulid
  userId : Ulid
  inHuddle : Bool
  channels : List String
  payload : String
  deriving DecidableEq

/-- **The structures in Redis**, and what was published. A version that is not
there is zero. -/
structure HuddleRedis where
  members : Ulid → AList (fun _ : Ulid => Participation)
  deadlines : AList (fun _ : Ulid × Ulid => ℕ)
  userKeys : Ulid → Option (Ulid × Ulid)
  marks : Ulid → Option HuddleMark
  inHuddle : Ulid → Finset Ulid
  versions : Ulid → ℕ
  soon : Ulid → AList (fun _ : Ulid => ℕ)
  notices : List HuddleNotice

namespace HuddleRedis

/-- Redis without huddles. -/
def empty : HuddleRedis := ⟨fun _ => ∅, ∅, fun _ => none, fun _ => none, fun _ => ∅, fun _ => 0,
  fun _ => ∅, []⟩

/-- How many participations a huddle has. -/
def count (s : HuddleRedis) (huddle : Ulid) : ℕ := (s.members huddle).keys.length

/-! ## What scripts share -/

/-- Publish to every channel, if there is anything to publish. -/
def publish (s : HuddleRedis) (ws user : Ulid) (on : Bool) (channels : List String)
    (payload : String) : HuddleRedis :=
  if payload = "" ∨ channels = [] then s
  else { s with notices := s.notices ++ [⟨ws, user, on, channels, payload⟩] }

/-- Take a user out of the workspace's set, and tell if it was in it. -/
def unmark (s : HuddleRedis) (user : Ulid) (mark : HuddleMark) : HuddleRedis :=
  if user ∈ s.inHuddle mark.ws then
    publish { s with
      inHuddle := Function.update s.inHuddle mark.ws ((s.inHuddle mark.ws).erase user) }
      mark.ws user false mark.ch mark.off
  else s

/-- Take the mark of a user away. -/
def statusOff (s : HuddleRedis) (user : Ulid) : HuddleRedis :=
  match s.marks user with
  | none => s
  | some mark =>
    { s.unmark user mark with marks := Function.update (s.unmark user mark).marks user none }

/-- Raise the version of a huddle. -/
def incr (s : HuddleRedis) (huddle : Ulid) : HuddleRedis :=
  { s with versions := Function.update s.versions huddle (s.versions huddle + 1) }

/-- Delete a participation and its deadline. -/
def delMember (s : HuddleRedis) (huddle participant : Ulid) : HuddleRedis :=
  { s with
    members := Function.update s.members huddle ((s.members huddle).erase participant)
    deadlines := s.deadlines.erase (huddle, participant) }

/-- Delete the key of a user. -/
def delUserKey (s : HuddleRedis) (user : Ulid) : HuddleRedis :=
  { s with userKeys := Function.update s.userKeys user none }

/-- Remove a participation, and return it. The mark of the user stays where the
user is only moving, and where the user has moved on to another participation. -/
def remove (s : HuddleRedis) (huddle participant : Ulid) (moving : Bool) :
    HuddleRedis × Option Participation :=
  match (s.members huddle).lookup participant with
  | none => (s, none)
  | some p =>
    let s₁ := s.delMember huddle participant
    let s₂ :=
      if s₁.userKeys p.userId = some (huddle, participant) then
        if moving then s₁.delUserKey p.userId else (s₁.delUserKey p.userId).statusOff p.userId
      else s₁
    (s₂.incr huddle, some p)

/-! ## The scripts -/

/-- What a join that was not refused returns: the version, the participation
that was removed, and the version of its huddle. -/
structure HuddleJoined where
  version : ℕ
  evicted : Option Participation
  evictedVersion : ℕ

/-- How many participations a join has to fit in with. That of the same user in
the same huddle does not count. -/
def others (s : HuddleRedis) (huddle user : Ulid) : ℕ :=
  match s.userKeys user with
  | none => s.count huddle
  | some (oldHuddle, oldParticipant) =>
    if oldHuddle = huddle ∧ oldParticipant ∈ s.members huddle then s.count huddle - 1
    else s.count huddle

/-- Remove the participation that a user has before it joins. -/
def evict (s : HuddleRedis) (user : Ulid) : HuddleRedis × Option Participation :=
  match s.userKeys user with
  | none => (s, none)
  | some (oldHuddle, oldParticipant) => s.remove oldHuddle oldParticipant true

/-- Enter a participation. -/
def enter (s : HuddleRedis) (p : Participation) (deadline : ℕ) : HuddleRedis :=
  incr { s with
    members := Function.update s.members p.huddleId ((s.members p.huddleId).insert p.id p)
    deadlines := s.deadlines.insert (p.huddleId, p.id) deadline
    userKeys := Function.update s.userKeys p.userId (some (p.huddleId, p.id))
    soon := Function.update s.soon p.huddleId ((s.soon p.huddleId).erase p.userId) } p.huddleId

/-- Take the mark away where it is in another workspace. -/
def leaveOther (s : HuddleRedis) (user ws : Ulid) : HuddleRedis :=
  match s.marks user with
  | none => s
  | some mark => if mark.ws ≠ ws then s.statusOff user else s

/-- Set the mark of a user, and tell if the user was not in the workspace's
set. -/
def mark (s : HuddleRedis) (user : Ulid) (status : HuddleStatus) : HuddleRedis :=
  let s₁ := { s with
    marks :=
      Function.update s.marks user (some ⟨status.workspaceId, status.channels, status.left⟩) }
  if user ∈ s₁.inHuddle status.workspaceId then s₁
  else
    publish { s₁ with
      inHuddle := Function.update s₁.inHuddle status.workspaceId
        (insert user (s₁.inHuddle status.workspaceId)) }
      status.workspaceId user true status.channels status.joined

/-- **Join a huddle.** The user's participation elsewhere, or on another device,
is removed first. A huddle that is full is left as it is. -/
def join (s : HuddleRedis) (p : Participation) (deadline limit : ℕ) (status : HuddleStatus) :
    HuddleRedis × Option HuddleJoined :=
  if limit ≤ s.others p.huddleId p.userId then (s, none)
  else
    let evicted := s.evict p.userId
    let entered := evicted.1.enter p deadline
    let marked := (entered.leaveOther p.userId status.workspaceId).mark p.userId status
    (marked, some
      { version := entered.versions p.huddleId
        evicted := evicted.2
        evictedVersion := match evicted.2, s.userKeys p.userId with
          | some _, some (oldHuddle, _) => evicted.1.versions oldHuddle
          | _, _ => 0 })

/-- Extend the deadline of a participation, if the user still has it. -/
def heartbeat (s : HuddleRedis) (user huddle participant : Ulid) (deadline : ℕ) :
    HuddleRedis × Bool :=
  if s.userKeys user = some (huddle, participant) then
    ({ s with deadlines :=
        if (huddle, participant) ∈ s.deadlines then s.deadlines.insert (huddle, participant) deadline
        else s.deadlines }, true)
  else (s, false)

/-- Remove a participation: what was removed, the version, and how many are
left. -/
def removeScript (s : HuddleRedis) (huddle participant : Ulid) :
    HuddleRedis × Option Participation × ℕ × ℕ :=
  let removed := s.remove huddle participant false
  (removed.1, removed.2, removed.1.versions huddle, removed.1.count huddle)

/-- The order of the sorted set: by score, and then by name. -/
def byScore (a b : ℕ × Ulid × Ulid) : Prop :=
  a.1 < b.1 ∨ a.1 = b.1 ∧ (a.2.1 < b.2.1 ∨ a.2.1 = b.2.1 ∧ a.2.2 ≤ b.2.2)

instance : DecidableRel byScore := fun a b => by
  unfold byScore
  infer_instance

/-- The first `max` participations whose deadline has passed. -/
def expired (s : HuddleRedis) (now max : ℕ) : List (Ulid × Ulid) :=
  (((s.deadlines.entries.filter (fun e => decide (e.2 ≤ now))).map
    (fun e => (e.2, e.1.1, e.1.2))).insertionSort byScore |>.take max).map Prod.snd

/-- Remove one participation whose deadline has passed. -/
def sweepOne (out : HuddleRedis × List (Participation × ℕ × ℕ)) (e : Ulid × Ulid) :
    HuddleRedis × List (Participation × ℕ × ℕ) :=
  match out.1.remove e.1 e.2 false with
  | (s, some p) => (s, out.2 ++ [(p, s.versions e.1, s.count e.1)])
  | (s, none) => ({ s with deadlines := s.deadlines.erase e }, out.2)

/-- Remove participations whose deadline has passed. -/
def sweep (s : HuddleRedis) (now max : ℕ) : HuddleRedis × List (Participation × ℕ × ℕ) :=
  (s.expired now max).foldl sweepOne (s, [])

/-- Write a participation that is there. -/
def setMember (s : HuddleRedis) (huddle participant : Ulid) (p : Participation) : HuddleRedis :=
  incr { s with
    members := Function.update s.members huddle ((s.members huddle).insert participant p) } huddle

/-- Mute a participation or not. The result is the version, or zero where there
is no participation. -/
def setMuted (s : HuddleRedis) (huddle participant : Ulid) (muted : Bool) : HuddleRedis × ℕ :=
  match (s.members huddle).lookup participant with
  | none => (s, 0)
  | some p =>
    let s' := s.setMember huddle participant { p with muted := muted }
    (s', s'.versions huddle)

/-- What a participation may share. -/
inductive HuddleTrackKind
  | camera
  | screen
  deriving DecidableEq

/-- What a participation shares. -/
def track (p : Participation) : HuddleTrackKind → String
  | .camera => p.cameraMid
  | .screen => p.screenMid

/-- Write what a participation shares. -/
def setTrackField (p : Participation) (mid : String) : HuddleTrackKind → Participation
  | .camera => { p with cameraMid := mid }
  | .screen => { p with screenMid := mid }

/-- How many participations of a huddle share their screen. -/
def sharing (s : HuddleRedis) (huddle : Ulid) : ℕ :=
  ((s.members huddle).entries.filter (fun e => decide (e.2.screenMid ≠ ""))).length

/-- What comes of sharing: the participation is gone, too many share their
screens, or the version and what was shared before. -/
inductive HuddleTrackResult
  | gone
  | full
  | done (version : ℕ) (previous : String)
  deriving DecidableEq

/-- Share a camera or a screen, or stop it. -/
def setTrack (s : HuddleRedis) (huddle participant : Ulid) (kind : HuddleTrackKind) (mid : String)
    (screenLimit : ℕ) : HuddleRedis × HuddleTrackResult :=
  match (s.members huddle).lookup participant with
  | none => (s, .gone)
  | some p =>
    if track p kind = mid then (s, .done (s.versions huddle) (track p kind))
    else if kind = .screen ∧ mid ≠ "" ∧ track p kind = "" ∧ screenLimit ≤ s.sharing huddle then
      (s, .full)
    else
      let s' := s.setMember huddle participant (setTrackField p mid kind)
      (s', .done (s'.versions huddle) (track p kind))

/-- Note that a user will join soon, and forget who was to join by now. -/
def joiningSoon (s : HuddleRedis) (huddle user : Ulid) (til now : ℕ) : HuddleRedis × ℕ :=
  let noted := (s.soon huddle).insert user til
  let s' := incr { s with
    soon := Function.update s.soon huddle
      ((noted.entries.filter (fun e => decide (e.2 ≤ now))).foldl (fun m e => m.erase e.1) noted) }
    huddle
  (s', s'.versions huddle)

/-- Remove one participation of a huddle that is over. -/
def clearOne (huddle : Ulid) (out : HuddleRedis × List Participation) (participant : Ulid) :
    HuddleRedis × List Participation :=
  match out.1.remove huddle participant false with
  | (s, some p) => (s, out.2 ++ [p])
  | (s, none) => (s, out.2)

/-- Remove everybody from a huddle that is over, and its keys. -/
def clear (s : HuddleRedis) (huddle : Ulid) : HuddleRedis × List Participation :=
  let out := (s.members huddle).keys.foldl (clearOne huddle) (s, [])
  ({ out.1 with
      members := Function.update out.1.members huddle ∅
      versions := Function.update out.1.versions huddle 0
      soon := Function.update out.1.soon huddle ∅ }, out.2)

end HuddleRedis

/-- A script, and what it is given. -/
inductive HuddleCall
  | join (p : Participation) (deadline limit : ℕ) (status : HuddleStatus)
  | heartbeat (user huddle participant : Ulid) (deadline : ℕ)
  | remove (huddle participant : Ulid)
  | sweep (now max : ℕ)
  | setMuted (huddle participant : Ulid) (muted : Bool)
  | setTrack (huddle participant : Ulid) (kind : HuddleRedis.HuddleTrackKind) (mid : String)
      (screenLimit : ℕ)
  | joiningSoon (huddle user : Ulid) (til now : ℕ)
  | clear (huddle : Ulid)

/-- What one script leaves behind. -/
def HuddleRedis.call (s : HuddleRedis) : HuddleCall → HuddleRedis
  | .join p deadline limit status => (s.join p deadline limit status).1
  | .heartbeat user huddle participant deadline =>
    (s.heartbeat user huddle participant deadline).1
  | .remove huddle participant => (s.removeScript huddle participant).1
  | .sweep now max => (s.sweep now max).1
  | .setMuted huddle participant muted => (s.setMuted huddle participant muted).1
  | .setTrack huddle participant kind mid screenLimit =>
    (s.setTrack huddle participant kind mid screenLimit).1
  | .joiningSoon huddle user til now => (s.joiningSoon huddle user til now).1
  | .clear huddle => (s.clear huddle).1

end Hibari
