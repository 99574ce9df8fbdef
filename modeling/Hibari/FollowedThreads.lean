import Hibari.RoomSummary
import Hibari.TimeText
import Hibari.KeyedRows

/-!
# Followed threads

The list of the threads that a user follows has a row for each, kept up to date by what arrives: a
reply, a version of the root, a read position. The server sends them in its order, and they may arrive
in any other, and more than once.

The module has the list and the three rules of `rules/threads.ts` that write it. A rule looks for the
row of a thread and leaves the list as it is where there is none; only a version of the root puts the
list in order again, as only the root says when the last reply was.
-/

namespace Hibari

/-! ## Rows -/

/-- What a root says of its replies. -/
structure ThreadSummary where
  replyCount : ℕ
  lastThreadSeq : ℕ
  lastReplyAt : Timestamp
  deriving DecidableEq

/-- A message with what it is to a thread: a reply has a place, a root a summary. -/
structure ThreadMessage extends Message where
  threadSeq : Option ℕ
  thread : Option ThreadSummary
  deriving DecidableEq

/-- The root of a thread, as the list shows it. -/
structure FollowedRoot where
  id : Ulid
  body : String
  deleted : Bool
  deriving DecidableEq

/-- **A row of the list.** -/
structure FollowedThread where
  root : FollowedRoot
  replyCount : ℕ
  lastReplyAt : Timestamp
  lastThreadSeq : ℕ
  lastReadThreadSeq : ℕ
  unreadCount : ℕ
  notifyReplies : Bool
  mentionCount : ℕ
  deriving DecidableEq

/-- `Date.parse`: milliseconds; further digits are dropped. -/
def Timestamp.parse (t : Timestamp) : ℕ :=
  t.second * 1000 + (t.fraction[0]?.elim 0 fun d => d.val * 100) +
    (t.fraction[1]?.elim 0 fun d => d.val * 10) + t.fraction[2]?.elim 0 fun d => d.val

namespace FollowedThread

variable (t : FollowedThread)

/-- `withUnread`; what would be less than nothing is nothing. -/
def withUnread : FollowedThread := { t with unreadCount := t.lastThreadSeq - t.lastReadThreadSeq }

/-- A version of the root, unless it is an older one. -/
def withRoot (root : ThreadMessage) (thread : ThreadSummary) : Option FollowedThread :=
  if thread.lastThreadSeq < t.lastThreadSeq then none
  else some (withUnread { t with
    root := { t.root with
      body := root.body
      deleted := root.deletedAt.isSome }
    replyCount := thread.replyCount
    lastThreadSeq := thread.lastThreadSeq
    lastReplyAt := thread.lastReplyAt })

/-- A read position. What is read up to the end has no mentions that are not read; up to somewhere
else, they are not counted again. -/
def withRead (lastReadThreadSeq : ℕ) : Option FollowedThread :=
  if lastReadThreadSeq ≤ t.lastReadThreadSeq then none
  else
    let next := withUnread { t with lastReadThreadSeq := lastReadThreadSeq }
    if next.unreadCount = 0 ∧ 0 < next.mentionCount then some { next with mentionCount := 0 }
    else some next

/-- A reply, unless something later was seen. -/
def withReply (reply : ThreadMessage) (userId : Ulid) : Option FollowedThread :=
  reply.threadSeq.bind fun threadSeq =>
    if threadSeq ≤ t.lastThreadSeq then none
    else
      let mentioned := decide (reply.sender.id ≠ userId) && mentionsUser reply.mentions userId
      some (withUnread { t with
        lastThreadSeq := threadSeq
        mentionCount := if mentioned then t.mentionCount + 1 else t.mentionCount })

end FollowedThread

/-- `byLastReply`: negative where the first comes first. -/
def byLastReply (a b : FollowedThread) : ℤ :=
  let diff := (b.lastReplyAt.parse : ℤ) - a.lastReplyAt.parse
  if diff ≠ 0 then diff
  else if b.root.id < a.root.id then -1
  else if a.root.id < b.root.id then 1
  else 0

/-- The first row of a thread is written; nothing, where there is none, or it stays as it is. -/
def updateThread (threads : List FollowedThread) (rootId : Ulid)
    (f : FollowedThread → Option FollowedThread) : Option (List FollowedThread) :=
  (threads.findIdx? fun t => t.root.id = rootId).bind fun index =>
    threads[index]?.bind fun current => (f current).map fun next => threads.set index next

/-- **A version of a root arrives.** -/
def applyRootToThreads (threads : List FollowedThread) (root : ThreadMessage) :
    List FollowedThread :=
  match root.thread with
  | none => threads
  | some thread =>
    match updateThread threads root.id fun current => current.withRoot root thread with
    | none => threads
    | some next => next.insertionSort fun a b => byLastReply a b ≤ 0

/-- **A read position arrives.** -/
def applyThreadRead (threads : List FollowedThread) (rootId : Ulid) (lastReadThreadSeq : ℕ) :
    List FollowedThread :=
  (updateThread threads rootId fun current => current.withRead lastReadThreadSeq).getD threads

/-- **A reply arrives.** -/
def applyReplyToThreads (threads : List FollowedThread) (reply : ThreadMessage) (userId : Ulid) :
    List FollowedThread :=
  match reply.threadRootId with
  | none => threads
  | some rootId =>
    (updateThread threads rootId fun current => current.withReply reply userId).getD threads

/-- `absorbThreadMessages`, of one message: what it does to the list. One's own reply is read. -/
def absorbThreadMessage (userId : Ulid) (created : Bool) (threads : List FollowedThread)
    (message : ThreadMessage) : List FollowedThread :=
  let replied := match message.threadRootId with
    | none => threads
    | some rootId =>
      if created then
        let applied := applyReplyToThreads threads message userId
        match message.threadSeq with
        | none => applied
        | some threadSeq =>
          if message.sender.id = userId then applyThreadRead applied rootId threadSeq else applied
      else threads
  if message.thread.isSome then applyRootToThreads replied message else replied

/-- What arrives about a thread. -/
inductive ThreadNotice
  | created (reply : ThreadMessage)
  /-- A version of the root, which may be one that is deleted. -/
  | updated (root : ThreadMessage)
  | read (rootId : Ulid) (lastReadThreadSeq : ℕ)
  deriving DecidableEq

/-- What a notice does to the list. -/
def applyThreadNotice (userId : Ulid) (threads : List FollowedThread) :
    ThreadNotice → List FollowedThread
  | .created reply => absorbThreadMessage userId true threads reply
  | .updated root => absorbThreadMessage userId false threads root
  | .read rootId lastReadThreadSeq => applyThreadRead threads rootId lastReadThreadSeq

/-! ## What the server says -/

namespace ThreadNotice

/-- The last reply that a notice knows of. -/
def seq : ThreadNotice → ℕ
  | .created reply => reply.threadSeq.getD 0
  | .updated root => root.thread.elim 0 fun thread => thread.lastThreadSeq
  | .read _ _ => 0

/-- What a notice says was read. -/
def readSeq (userId : Ulid) : ThreadNotice → ℕ
  | .created reply => if reply.sender.id = userId then reply.threadSeq.getD 0 else 0
  | .updated _ => 0
  | .read _ lastReadThreadSeq => lastReadThreadSeq

/-- Whether a notice is a reply that mentions the user. -/
def mentions (userId : Ulid) : ThreadNotice → Bool
  | .created reply =>
    decide (reply.sender.id ≠ userId) && mentionsUser reply.mentions userId
  | _ => false

/-- The last reply of some notices. -/
def lastSeq (S : Finset ThreadNotice) : ℕ := S.sup seq

/-- How far was read. -/
def lastRead (userId : Ulid) (S : Finset ThreadNotice) : ℕ := S.sup (readSeq userId)

/-- The replies that mention the user and were not read. -/
def unreadMentions (userId : Ulid) (S : Finset ThreadNotice) : Finset ThreadNotice :=
  S.filter fun e => e.mentions userId = true ∧ lastRead userId S < e.seq

/-- The newest version of the root. -/
def Newest (S : Finset ThreadNotice) (v : ThreadMessage) : Prop :=
  .updated v ∈ S ∧ ∀ u, .updated u ∈ S → u.changeSeq ≤ v.changeSeq

end ThreadNotice

open ThreadNotice

/-- **What the server says of one thread**: replies have places, one each; versions of the root know
of more replies as they get newer; and each reply is followed by a version that knows of it. -/
structure ThreadHistory (rootId : Ulid) (S : Finset ThreadNotice) : Prop where
  reply : ∀ m, .created m ∈ S → m.threadRootId = some rootId ∧ m.thread = none ∧
    m.threadSeq.isSome ∧ m.threadSeq ≠ some 0
  root : ∀ m, .updated m ∈ S → m.id = rootId ∧ m.threadRootId = none ∧ m.thread.isSome
  read : ∀ id k, .read id k ∈ S → id = rootId
  one : ∀ m m', .created m ∈ S → .created m' ∈ S → m.threadSeq = m'.threadSeq → m = m'
  version : ∀ m m', .updated m ∈ S → .updated m' ∈ S → m.changeSeq = m'.changeSeq → m = m'
  grows : ∀ m m', .updated m ∈ S → .updated m' ∈ S → m.changeSeq ≤ m'.changeSeq →
    seq (.updated m) ≤ seq (.updated m')
  known : ∀ m, .created m ∈ S → ∃ m', .updated m' ∈ S ∧ seq (.created m) ≤ seq (.updated m')

/-- A row shows a version of its root. -/
structure FollowedThread.Shows (t : FollowedThread) (v : ThreadMessage) : Prop where
  body : t.root.body = v.body
  deleted : t.root.deleted = v.deletedAt.isSome
  replyCount : v.thread.map ThreadSummary.replyCount = some t.replyCount
  lastReplyAt : v.thread.map ThreadSummary.lastReplyAt = some t.lastReplyAt

/-- **A row that is counted**: how many replies there are, and how many of them are not read. -/
structure FollowedThread.Counts (userId : Ulid) (S : Finset ThreadNotice) (t : FollowedThread) :
    Prop where
  lastThreadSeq : t.lastThreadSeq = lastSeq S
  lastReadThreadSeq : t.lastReadThreadSeq = lastRead userId S
  unreadCount : t.unreadCount = t.lastThreadSeq - t.lastReadThreadSeq

/-- **A row as the server gives it**, when it has said this much. -/
structure FollowedThread.Reflects (userId : Ulid) (S : Finset ThreadNotice) (t : FollowedThread) :
    Prop extends t.Counts userId S where
  shows : ∀ v, Newest S v → t.Shows v
  mentionCount : t.mentionCount = (unreadMentions userId S).card

end Hibari
