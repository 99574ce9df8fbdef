import Hibari.FollowedThreads
import Hibari.RoomArchive
import Hibari.Timeline

/-!
# The activity of a user, on the client

What the user has to look at in a workspace: messages that a rule picks (`notifyReasons`), and
reactions to her own. A list for each tab and switch is loaded, and kept up to date by what arrives
(`store/activity.ts` and `rules/activity-feed.ts`).
-/

namespace Hibari

/-! ## Settings -/

/-- `NotifyLevel`. -/
inductive NotifyLevel
  | all
  | mentions
  | none
  deriving DecidableEq

/-- Why something is shown, in the order of their names. -/
inductive ActivityReason
  | channel
  | dm
  | mention
  | reaction
  | thread
  deriving DecidableEq

/-- A tab. -/
inductive ActivityFilter
  | all
  | dm
  | mention
  | thread
  | reaction
  deriving DecidableEq

/-- The settings of a user for a room. -/
structure RoomNotifications where
  level : Option NotifyLevel
  muted : Bool
  mutedUntil : Option ℕ
  deriving DecidableEq

/-- A mute that has run out is none. -/
def isMuted (n : RoomNotifications) (now : ℕ) : Bool :=
  n.muted && n.mutedUntil.all fun until_ => now < until_

/-- A room, as the client has it; it has no settings for rooms that the user is not in. -/
structure ActivityRoom where
  id : Ulid
  workspaceId : Ulid
  kind : RoomKind
  notifications : Option RoomNotifications
  lastReadUserSeq : Option ℕ
  deriving DecidableEq

/-- A message, with the time that it is ordered by. -/
structure ActivityMessage extends ThreadMessage where
  sentAt : Timestamp
  deriving DecidableEq

/-! ## The rule -/

/-- By name or for the channel; for who is here, if that counts. -/
def mentionsMe (mentions : List Mention) (userId : Ulid) (countHere : Bool) : Bool :=
  mentions.any fun m => match m.kind with
    | .user => m.user.any fun u => decide (u.id = userId)
    | .channel => true
    | .here => countHere

/-- The name of a reason, in the order of the names. -/
def ActivityReason.rank : ActivityReason → ℕ
  | .channel => 0
  | .dm => 1
  | .mention => 2
  | .reaction => 3
  | .thread => 4

/-- `sort`. -/
def sortReasons (reasons : List ActivityReason) : List ActivityReason :=
  reasons.insertionSort fun a b => a.rank ≤ b.rank

/-- **Why a message is for the user**; it is not, if there is no reason. -/
def notifyReasons (message : ThreadMessage) (userId : Ulid) (room : Option ActivityRoom)
    (level : Option NotifyLevel) (thread : Option FollowedThread) (now : ℕ) (countHere : Bool) :
    List ActivityReason :=
  if message.kind ≠ .user ∨ message.sender.id = userId ∨ message.deletedAt.isSome then []
  else match room with
    | none => []
    | some room => match room.notifications with
      | none => []
      | some notifications =>
        if isMuted notifications now then []
        else
          let global := level.getD .mentions
          let reply := message.threadRootId.isSome
          let mentioned := mentionsMe message.mentions userId countHere
          let following := reply && thread.any FollowedThread.notifyReplies
          let named := (if mentioned then [ActivityReason.mention] else []) ++
            if following then [.thread] else []
          if room.kind = .roomDM then
            if global = .none then [] else sortReasons (.dm :: named)
          else
            let effective := notifications.level.getD global
            if effective = .none then []
            else
              let threadOnly := reply && !message.alsoInChannel
              sortReasons ((if effective = .all && !threadOnly then [.channel] else []) ++ named)

/-! ## Lists -/

/-- The letters of a ULID. -/
def crockford : List Char := "0123456789ABCDEFGHJKMNPQRSTVWXYZ".toList

/-- The text of a ULID. -/
def ulidText (id : Ulid) : List Char :=
  (List.range 26).map fun i => crockford.getD (id / 32 ^ (25 - i) % 32) '0'

/-- What reacted, and how. -/
structure ActivityReaction where
  emoji : String
  userId : Ulid
  deriving DecidableEq

/-- **One line of a list**: a message, or a reaction to one of the user's own. -/
structure ActivityItem where
  id : List Char
  reasons : List ActivityReason
  unread : Bool
  occurredAt : Timestamp
  roomId : Ulid
  message : ActivityMessage
  reaction : Option ActivityReaction
  deriving DecidableEq

/-- A list, which the server pages by a text of its own. -/
structure ActivityListState where
  status : LoadStatus
  items : List ActivityItem
  nextCursor : Option (List Char)
  loadingMore : Bool
  deriving DecidableEq

/-- What is loaded of a workspace. -/
structure WorkspaceActivity where
  lists : ActivityFilter → Bool → Option ActivityListState
  unreadCount : Option ℕ

def ActivityFilter.reason : ActivityFilter → Option ActivityReason
  | .all => none
  | .dm => some .dm
  | .mention => some .mention
  | .thread => some .thread
  | .reaction => some .reaction

/-- A tab shows a reason. -/
def ActivityFilter.shows (filter : ActivityFilter) (reasons : List ActivityReason) : Bool :=
  filter.reason.all fun reason => decide (reason ∈ reasons)

def belongsTo (item : ActivityItem) (filter : ActivityFilter) (unreadOnly : Bool) : Bool :=
  if unreadOnly && !item.unread then false else filter.shows item.reasons

def messageActivityItem (message : ActivityMessage) (room : ActivityRoom)
    (reasons : List ActivityReason) (unread : Bool) : ActivityItem where
  id := "m:".toList ++ ulidText message.id
  reasons := reasons
  unread := unread
  occurredAt := message.sentAt
  roomId := room.id
  message := message
  reaction := none

/-- Messages are the same by their ids, reactions by their keys. -/
def sameItem (a b : ActivityItem) : Bool :=
  if a.reaction.isNone && b.reaction.isNone then a.message.id = b.message.id else a.id = b.id

/-- `compareNewestFirst`: the texts are compared. -/
def compareNewestFirst (a b : ActivityItem) : ℤ :=
  if a.occurredAt ≠ b.occurredAt then if b.occurredAt.text < a.occurredAt.text then -1 else 1
  else if a.id = b.id then 0
  else if b.id < a.id then -1
  else 1

/-- **An item is put in**, in the place of the same one if there was one. -/
def insertActivity (items : List ActivityItem) (item : ActivityItem) : List ActivityItem :=
  let rest := items.filter fun i => !sameItem i item
  let at_ := (rest.findIdx? fun i => decide (compareNewestFirst item i < 0)).getD rest.length
  rest.take at_ ++ item :: rest.drop at_

/-! ## A message arrives -/

/-- **What the client has.** -/
structure ActivityStore where
  rooms : Ulid → Option ActivityRoom
  notificationLevels : Ulid → Option NotifyLevel
  threadLists : Ulid → Option (List FollowedThread)
  activity : Ulid → Option WorkspaceActivity
  /-- The messages that were added to the number of unread ones. -/
  countedActivity : Finset Ulid

def maxUnreadActivity : ℕ := 100

/-- The items of each list that is loaded are written. -/
def patchActivityItems (recipe : List ActivityItem → ActivityFilter → Bool → List ActivityItem)
    (activity : WorkspaceActivity) : WorkspaceActivity :=
  { activity with
    lists := fun filter unreadOnly => (activity.lists filter unreadOnly).map fun list =>
      if list.status = .ready then { list with items := recipe list.items filter unreadOnly }
      else list }

/-- Whether a message is unread, by the room or by the thread. -/
def isUnreadActivity (message : ThreadMessage) (room : ActivityRoom)
    (thread : Option FollowedThread) :
    Bool :=
  if inChannel message.toMessage then decide (room.lastReadUserSeq.getD 0 < message.userSeq)
  else thread.any fun t => decide (t.lastReadThreadSeq < message.threadSeq.getD 0)

namespace ActivityStore

variable (userId : Ulid) (now : ℕ) (s : ActivityStore)

/-- The row of the thread of a reply. -/
def threadOf (workspaceId : Ulid) (message : ThreadMessage) : Option FollowedThread :=
  message.threadRootId.bind fun rootId =>
    (s.threadLists workspaceId).bind fun list => list.find? fun t => t.root.id = rootId

/-- **A message arrives.** -/
def receiveActivityMessage (message : ActivityMessage) : ActivityStore :=
  match s.rooms message.roomId with
  | none => s
  | some room =>
    match s.activity room.workspaceId with
    | none => s
    | some activity =>
      let thread := s.threadOf room.workspaceId message.toThreadMessage
      let reasons := notifyReasons message.toThreadMessage userId (some room)
        (s.notificationLevels room.workspaceId) thread now true
      if reasons = [] then s
      else
        let unread := isUnreadActivity message.toThreadMessage room thread
        let item := messageActivityItem message room reasons unread
        let listed := patchActivityItems (fun items filter unreadOnly =>
          if belongsTo item filter unreadOnly then insertActivity items item else items) activity
        let counts := unread && decide (message.id ∉ s.countedActivity)
        let counted := { listed with
          unreadCount := if counts then listed.unreadCount.map fun n =>
            min maxUnreadActivity (n + 1)
            else listed.unreadCount }
        { s with
          activity := Function.update s.activity room.workspaceId (some counted)
          countedActivity := if counts then insert message.id s.countedActivity
            else s.countedActivity }

end ActivityStore

end Hibari
