import Hibari.Channels
import Hibari.Message
import Hibari.TransitionSystem

/-!
# The tab that notifies

Every tab of a browser hears of a message, and one of them shows a notification. Which one is
decided by a lock, which the browser gives to one request at a time; whether any tab is seen, by
messages over a broadcast channel. A tab can be stopped and started again while a request of the
first start is still waiting, and is gone when it is closed.

At most one tab is the leader. When nothing is on its way a running tab is, and it shows a
notification just when no running tab is visible (`one_tab_notifies`).
-/

namespace Hibari

open List Option Function Sent Bool

inductive VisibilityMessage
  | hello (tab : Ulid) (visible : Bool)
  | visibility (tab : Ulid) (visible : Bool)
  | bye (tab : Ulid)
  deriving DecidableEq

def VisibilityMessage.tab : VisibilityMessage → Ulid
  | .hello tab _ => tab
  | .visibility tab _ => tab
  | .bye tab => tab

/-- **The variables of `createDesktopNotifier`** in one tab, and the tab. -/
structure NotifierTab where
  running : Bool
  leader : Bool
  others : AList fun _ : Ulid => Bool
  /-- The request whose lock is given back. -/
  releaseLock : Option ℕ
  /-- Whether changes of the visibility are heard of. -/
  watching : Bool
  /-- `options.visible()`. -/
  visible : Bool
  /-- The tab was closed. -/
  gone : Bool

/-- A request for the lock. -/
structure LockRequest where
  id : ℕ
  tab : Ulid
  deriving DecidableEq

inductive LockPhase
  /-- The callback is still to be called. -/
  | granted
  /-- The promise of the callback is not resolved. -/
  | pending
  | settled
  deriving DecidableEq

/-- **The tabs, the channel `hibari:visibility` and the lock `hibari:notifier`.** -/
structure NotifierState where
  tabs : Ulid → NotifierTab
  /-- The tabs whose channel is open. -/
  channels : List Ulid
  posts : List (Sent Ulid VisibilityMessage)
  queue : List LockRequest
  held : Option (LockRequest × LockPhase)
  nextRequest : ℕ

/-- **A step.** -/
inductive NotifierAction
  | start (t : Ulid)
  | stop (t : Ulid)
  | setVisible (t : Ulid) (visible : Bool)
  /-- The tab is closed. It has said before that it is hidden. -/
  | disappear (t : Ulid)
  /-- One of the requests that wait is given the lock. -/
  | grant (i : ℕ)
  | callback
  | release
  | deliver (sender receiver : Ulid)
  deriving DecidableEq

namespace NotifierTab

/-- A tab that is not there any more. -/
def closed : NotifierTab := ⟨false, false, ∅, none, false, false, true⟩

/-- `onMessage`: what is known of other tabs. -/
def onMessage (t : Ulid) (tab : NotifierTab) (data : VisibilityMessage) : NotifierTab :=
  if data.tab = t then tab
  else match data with
    | .bye b => { tab with others := tab.others.erase b }
    | .hello b visible => { tab with others := tab.others.insert b visible }
    | .visibility b visible => { tab with others := tab.others.insert b visible }

/-- `onMessage`: a tab that says hello is answered. -/
def answer (t : Ulid) (tab : NotifierTab) : VisibilityMessage → Option VisibilityMessage
  | .hello b _ => if b = t then none else some (.visibility t tab.visible)
  | _ => none

end NotifierTab

namespace NotifierState

/-- The variables of one tab change. -/
def setTab (s : NotifierState) (t : Ulid) (tab : NotifierTab) : NotifierState :=
  { s with tabs := Function.update s.tabs t tab }

/-- `channel?.postMessage`: to every other tab whose channel is open. -/
def postMessage (s : NotifierState) (t : Ulid) (data : VisibilityMessage) : NotifierState :=
  if t ∈ s.channels then
    { s with posts := Sent.send s.posts t (s.channels.filter (· ≠ t)) data }
  else s

/-- `channel?.close()`: nothing that was on its way comes. -/
def close (s : NotifierState) (t : Ulid) : NotifierState :=
  { s with channels := s.channels.filter (· ≠ t), posts := Sent.withoutReceiver s.posts t }

/-- `releaseLock?.()`: the promise of the callback is resolved. -/
def resolve (s : NotifierState) (t : Ulid) (id : ℕ) : NotifierState :=
  if s.held = some (⟨id, t⟩, .pending) then { s with held := some (⟨id, t⟩, .settled) } else s

def start (s : NotifierState) (t : Ulid) : NotifierState :=
  if (s.tabs t).running then s
  else
    let opened : NotifierState := { s.setTab t
        { s.tabs t with running := true, others := ∅, watching := true } with
      channels := s.channels ++ [t] }
    { opened.postMessage t (.hello t (s.tabs t).visible) with
      queue := s.queue ++ [⟨s.nextRequest, t⟩]
      nextRequest := s.nextRequest + 1 }

def stop (s : NotifierState) (t : Ulid) : NotifierState :=
  let released := (s.tabs t).releaseLock.elim s (s.resolve t)
  let stopped := released.setTab t { s.tabs t with
    running := false, leader := false, releaseLock := none, watching := false }
  (stopped.postMessage t (.bye t)).close t

/-- What a tab shows changes, and who watches says so. -/
def setVisible (s : NotifierState) (t : Ulid) (visible : Bool) : NotifierState :=
  let changed := s.setTab t { s.tabs t with visible }
  if (s.tabs t).watching then changed.postMessage t (.visibility t visible) else changed

/-- The browser forgets a tab: its channel, its requests and its lock. -/
def disappear (s : NotifierState) (t : Ulid) : NotifierState :=
  { (s.setTab t .closed).close t with
    queue := s.queue.filter (·.tab ≠ t)
    held := s.held.filter fun held => held.1.tab ≠ t }

/-- The callback of the request that was given the lock. -/
def callback (s : NotifierState) (r : LockRequest) : NotifierState :=
  if (s.tabs r.tab).running then
    { s.setTab r.tab { s.tabs r.tab with leader := true, releaseLock := some r.id } with
      held := some (r, .pending) }
  else { s with held := some (r, .settled) }

/-- A message comes. -/
def deliver (s : NotifierState) (t : Ulid) (data : VisibilityMessage)
    (posts : List (Sent Ulid VisibilityMessage)) : NotifierState :=
  let heard := { s with posts }.setTab t ((s.tabs t).onMessage t data)
  ((s.tabs t).answer t data).elim heard (heard.postMessage t)

def act (s : NotifierState) : NotifierAction → Option NotifierState
  | .start t => if (s.tabs t).gone then none else some (s.start t)
  | .stop t => if (s.tabs t).gone then none else some (s.stop t)
  | .setVisible t visible => if (s.tabs t).gone then none else some (s.setVisible t visible)
  | .disappear t =>
    if (s.tabs t).gone ∨ (s.tabs t).visible then none else some (s.disappear t)
  | .grant i => if s.held.isSome then none else s.queue[i]?.map fun r =>
      { s with queue := s.queue.eraseIdx i, held := some (r, .granted) }
  | .callback => s.held.bind fun held => if held.2 = .granted then some
    (s.callback held.1) else none
  | .release => s.held.bind fun held => if held.2 = .settled then some
    { s with held := none } else none
  | .deliver a b => (Sent.receive s.posts a b).map fun x => s.deliver b x.1 x.2

/-- No tab has been started. -/
structure Initial (s : NotifierState) : Prop where
  tabs : ∀ t, ∃ visible, s.tabs t = ⟨false, false, ∅, none, false, visible, false⟩
  channels : s.channels = []
  posts : s.posts = []
  queue : s.queue = []
  held : s.held = none

/-- **Tabs that come and go.** -/
def system : TransitionSystem NotifierState NotifierAction where
  init := Initial
  step := act

/-- No message is on its way, and no request is to be given the lock. -/
def Settled (s : NotifierState) : Prop :=
  s.posts = [] ∧ (s.held = none → s.queue = []) ∧ ∀ held ∈ s.held, held.2 = .pending

instance decidableSettled (s : NotifierState) : Decidable s.Settled := by
  unfold Settled
  infer_instance

end NotifierState

/-! ## What a step does -/

namespace VisibilityMessage

/-- What is known of the sender once its message has come. -/
def seen (_ : Option Bool) : VisibilityMessage → Option Bool
  | .hello _ visible => some visible
  | .visibility _ visible => some visible
  | .bye _ => none

end VisibilityMessage

namespace NotifierState

variable {s s' : NotifierState} {t a b : Ulid} {data : VisibilityMessage} {tab : NotifierTab}

/-- **What one tab will know of another** when everything that is on its way has come. -/
def view (s : NotifierState) (a b : Ulid) : Option Bool :=
  (Sent.between s.posts b a).foldl VisibilityMessage.seen ((s.tabs a).others.lookup b)

/-- One tab has said hello, and the other has not heard it yet. -/
def Greets (s : NotifierState) (a b : Ulid) : Prop :=
  ∃ visible, VisibilityMessage.hello a visible ∈ Sent.between s.posts a b

@[simp] theorem setTab_self (tab : NotifierTab) : (s.setTab t tab).tabs t = tab :=
  update_self _ _ _

theorem setTab_of_ne (h : a ≠ t) : (s.setTab t tab).tabs a = s.tabs a :=
  update_of_ne h _ _

@[simp] theorem postMessage_tabs : (s.postMessage t data).tabs = s.tabs := by
  unfold postMessage
  split <;> rfl

@[simp] theorem postMessage_channels : (s.postMessage t data).channels = s.channels := by
  unfold postMessage
  split <;> rfl

@[simp] theorem postMessage_queue : (s.postMessage t data).queue = s.queue := by
  unfold postMessage
  split <;> rfl

@[simp] theorem postMessage_held : (s.postMessage t data).held = s.held := by
  unfold postMessage
  split <;> rfl

/-! ### What is on its way -/

theorem between_postMessage_self (hnodup : s.channels.Nodup) (ht : t ∈ s.channels)
    (ha : a ∈ s.channels) (hne : a ≠ t) :
    Sent.between (s.postMessage t data).posts t a = Sent.between s.posts t a ++ [data] := by
  unfold postMessage
  rw [if_pos ht]
  exact between_send_self (hnodup.filter _) (mem_filter.mpr ⟨ha, decide_eq_true hne⟩)

theorem between_postMessage_of_ne (hb : b ≠ t) :
    Sent.between (s.postMessage t data).posts b a = Sent.between s.posts b a := by
  unfold postMessage
  split
  · exact between_send_of_sender_ne hb
  · rfl

theorem view_postMessage_self (hnodup : s.channels.Nodup) (ht : t ∈ s.channels)
    (ha : a ∈ s.channels) (hne : a ≠ t) :
    (s.postMessage t data).view a t = VisibilityMessage.seen (s.view a t) data := by
  unfold view
  rw [between_postMessage_self hnodup ht ha hne, foldl_append, postMessage_tabs]
  rfl

theorem view_postMessage_of_ne (hb : b ≠ t) : (s.postMessage t data).view a b = s.view a b := by
  unfold view
  rw [between_postMessage_of_ne hb, postMessage_tabs]

theorem greets_postMessage_of_ne (ha : a ≠ t) (h : s.Greets a b) :
    (s.postMessage t data).Greets a b := by
  obtain ⟨visible, hmem⟩ := h
  exact ⟨visible, (between_postMessage_of_ne ha).symm ▸ hmem⟩

theorem greets_postMessage_self (hnodup : s.channels.Nodup) (ht : t ∈ s.channels)
    (hb : b ∈ s.channels) (hne : b ≠ t) (h : s.Greets t b) : (s.postMessage t data).Greets t b := by
  obtain ⟨visible, hmem⟩ := h
  refine ⟨visible, ?_⟩
  rw [between_postMessage_self hnodup ht hb hne]
  exact mem_append_left _ hmem

/-- A message that is posted says who sent it, and goes to another tab whose channel is open. -/
theorem mem_postMessage {e : Sent Ulid VisibilityMessage} (he : e ∈ (s.postMessage t data).posts) :
    e ∈ s.posts ∨ e.sender = t ∧ e.data = data ∧ e.receiver ≠ t ∧ e.receiver ∈ s.channels := by
  unfold postMessage at he
  split at he
  · obtain hold | hnew := mem_append.mp he
    · exact .inl hold
    · obtain ⟨b, hb, rfl⟩ := List.mem_map.mp hnew
      obtain ⟨hopen, hne⟩ := mem_filter.mp hb
      exact .inr ⟨rfl, rfl, of_decide_eq_true hne, hopen⟩
  · exact .inl he

theorem view_close_of_ne (ha : a ≠ t) : (s.close t).view a b = s.view a b := by
  show (Sent.between (Sent.withoutReceiver s.posts t) b a).foldl _ _ = _
  rw [between_withoutReceiver_of_ne ha]
  rfl

theorem greets_close_of_ne (hb : b ≠ t) (h : s.Greets a b) : (s.close t).Greets a b := by
  obtain ⟨visible, hmem⟩ := h
  refine ⟨visible, ?_⟩
  show _ ∈ Sent.between (Sent.withoutReceiver s.posts t) a b
  rw [between_withoutReceiver_of_ne hb]
  exact hmem

/-- What a tab will know changes with the variables of that tab alone. -/
theorem view_setTab_of_others (h : tab.others = (s.tabs t).others) :
    (s.setTab t tab).view a b = s.view a b := by
  unfold view
  by_cases ha : a = t
  · rw [ha, setTab_self, h]
    rfl
  · rw [setTab_of_ne ha]
    rfl

/-! ### A message comes -/

theorem lookup_onMessage_self (hne : data.tab ≠ t) : (tab.onMessage t data).others.lookup data.tab =
      VisibilityMessage.seen (tab.others.lookup data.tab) data := by
  unfold NotifierTab.onMessage
  rw [if_neg hne]
  cases data with
  | bye => exact AList.lookup_erase _ _
  | _ => exact AList.lookup_insert _

theorem lookup_onMessage_of_ne (hb : b ≠ data.tab) :
    (tab.onMessage t data).others.lookup b = tab.others.lookup b := by
  unfold NotifierTab.onMessage
  split
  · rfl
  · cases data with
    | bye => exact AList.lookup_erase_ne hb
    | _ => exact AList.lookup_insert_ne hb

theorem onMessage_eq (t : Ulid) (data : VisibilityMessage) (tab : NotifierTab) :
    tab.onMessage t data = { tab with others := (tab.onMessage t data).others } := by
  unfold NotifierTab.onMessage
  split
  · rfl
  · cases data <;> rfl

/-- **What comes was counted already.** -/
theorem view_receive {posts : List (Sent Ulid VisibilityMessage)}
    (h : Sent.receive s.posts b a = some (data, posts)) (htab : data.tab = b) (hne : b ≠ a)
    (x y : Ulid) :
    ({ s with posts }.setTab a ((s.tabs a).onMessage a data)).view x y = s.view x y := by
  show (Sent.between posts y x).foldl _
    (((({ s with posts } : NotifierState).setTab a _).tabs x).others.lookup y) = s.view x y
  unfold view
  by_cases hx : x = a
  · rw [hx, setTab_self]
    by_cases hy : y = b
    · rw [hy, between_receive h, foldl_cons, ← htab, lookup_onMessage_self (htab.symm ▸ hne)]
    · rw [between_receive_of_ne h fun heq => hy heq.1, lookup_onMessage_of_ne (htab.symm ▸ hy)]
  · rw [setTab_of_ne hx, between_receive_of_ne h fun heq => hx heq.2]

/-! ## Who leads -/

/-- **Who leads holds the lock, and who runs has asked for it.** -/
structure LocksBy (t : Ulid) (tab : NotifierTab) (queue : List LockRequest)
    (held : Option (LockRequest × LockPhase)) : Prop where
  released : ∀ id, tab.releaseLock = some id ↔ held = some (⟨id, t⟩, .pending)
  leader : tab.leader = tab.releaseLock.isSome
  running : tab.leader = true → tab.running = true
  asked : tab.running = true → tab.leader = true ∨
    (∃ r ∈ queue, r.tab = t) ∨ ∃ id, held = some (⟨id, t⟩, .granted)

section LocksBy

variable {tab tab' : NotifierTab} {queue queue' : List LockRequest}
  {held held' : Option (LockRequest × LockPhase)}

/-- A tab that has nothing to do with what happens to the lock. -/
theorem LocksBy.frame (h : LocksBy t tab queue held)
    (hpending : ∀ id, held' = some (⟨id, t⟩, .pending) ↔ held = some (⟨id, t⟩, .pending))
    (hasked : ((∃ r ∈ queue, r.tab = t) ∨ ∃ id, held = some (⟨id, t⟩, .granted)) →
      (∃ r ∈ queue', r.tab = t) ∨ ∃ id, held' = some (⟨id, t⟩, .granted)) :
    LocksBy t tab queue' held' where
  released id := (h.released id).trans (hpending id).symm
  leader := h.leader
  running := h.running
  asked hrunning := (h.asked hrunning).imp_right hasked

/-- Variables that have nothing to do with the lock. -/
theorem LocksBy.congr (h : LocksBy t tab queue held) (hrunning : tab'.running = tab.running)
    (hleader : tab'.leader = tab.leader) (hrelease : tab'.releaseLock = tab.releaseLock) :
    LocksBy t tab' queue held where
  released id := by
    rw [hrelease]
    exact h.released id
  leader := by
    rw [hleader, hrelease]
    exact h.leader
  running := by
    rw [hleader, hrunning]
    exact h.running
  asked := by
    rw [hleader, hrunning]
    exact h.asked

/-- A tab that does not run, and has not got the lock. -/
theorem LocksBy.of_idle (hrunning : tab.running = false) (hleader : tab.leader = false)
    (hrelease : tab.releaseLock = none) (hheld : ∀ id, held ≠ some (⟨id, t⟩, .pending)) :
    LocksBy t tab queue held where
  released id := by
    rw [hrelease]
    exact ⟨nofun, fun heq => absurd heq (hheld id)⟩
  leader := by
    rw [hleader, hrelease]
    rfl
  running htrue := absurd (hleader ▸ htrue) Bool.false_ne_true
  asked htrue := absurd (hrunning ▸ htrue) Bool.false_ne_true

theorem LocksBy.releaseLock_eq_none (h : LocksBy t tab queue held) (ht : tab.leader = false) :
    tab.releaseLock = none := by
  have hsome := h.leader
  rw [ht] at hsome
  exact isSome_eq_false_iff.mp hsome.symm |> isNone_iff_eq_none.mp

end LocksBy

variable {r : LockRequest} {posts : List (Sent Ulid VisibilityMessage)}

/-- Of every tab. -/
def Locked (s : NotifierState) : Prop := ∀ t, LocksBy t (s.tabs t) s.queue s.held

/-- A tab starts, and asks for the lock. -/
theorem Locked.start (h : s.Locked) : (s.start t).Locked := by
  unfold NotifierState.start
  split
  · exact h
  next hrunning =>
    intro a
    have hqueue : ∀ r ∈ s.queue, r ∈ s.queue ++ [⟨s.nextRequest, t⟩] := fun r hr =>
      mem_append_left _ hr
    show LocksBy a ((postMessage _ t _).tabs a) (s.queue ++ [⟨s.nextRequest, t⟩])
      (postMessage _ t _).held
    rw [postMessage_tabs, postMessage_held]
    by_cases hat : a = t
    · subst hat
      show LocksBy a ((s.setTab a _).tabs a) _ s.held
      rw [setTab_self]
      exact ⟨(h a).released, (h a).leader, fun _ => rfl, fun _ =>
        .inr (.inl ⟨_, mem_append_right _ (.head _), rfl⟩)⟩
    · show LocksBy a ((s.setTab t _).tabs a) _ s.held
      rw [setTab_of_ne hat]
      exact (h a).frame (fun _ => .rfl) (Or.imp_left fun ⟨r, hr, heq⟩ => ⟨r, hqueue r hr, heq⟩)

theorem held_resolve {id : ℕ} : (s.resolve t id).held =
    if s.held = some (⟨id, t⟩, .pending) then some (⟨id, t⟩, .settled) else s.held := by
  unfold resolve
  split <;> rfl

/-- A tab that stops gives back the lock if it has it. -/
theorem Locked.held_stop (h : s.Locked) : (s.stop t).queue = s.queue ∧ ((s.stop t).held = s.held ∧
      (∀ id, s.held ≠ some (⟨id, t⟩, .pending)) ∨
      ∃ id, s.held = some (⟨id, t⟩, .pending) ∧ (s.stop t).held = some (⟨id, t⟩, .settled)) := by
  unfold NotifierState.stop close
  dsimp only
  rw [postMessage_queue, postMessage_held]
  cases hrelease : (s.tabs t).releaseLock with
  | none =>
    refine ⟨rfl, .inl ⟨rfl, fun id heq => ?_⟩⟩
    exact nomatch hrelease.symm.trans (((h t).released id).mpr heq)
  | some id =>
    have hheld := ((h t).released id).mp hrelease
    refine ⟨?_, .inr ⟨id, hheld, ?_⟩⟩
    · show (s.resolve t id).queue = s.queue
      unfold resolve
      rw [if_pos hheld]
    · show (s.resolve t id).held = _
      rw [held_resolve, if_pos hheld]

/-- The variables of the other tabs stay as they are. -/
theorem tabs_stop : (s.stop t).tabs = update s.tabs t { s.tabs t with
    running := false, leader := false, releaseLock := none, watching := false } := by
  unfold NotifierState.stop close
  dsimp only
  rw [postMessage_tabs]
  cases (s.tabs t).releaseLock with
  | none => rfl
  | some id =>
    show update (s.resolve t id).tabs t _ = _
    unfold resolve
    split <;> rfl

variable (h : s.Locked)
include h

/-- A tab stops. -/
theorem Locked.stop : (s.stop t).Locked := by
  intro a
  obtain ⟨hqueue, hheld⟩ := h.held_stop (t := t)
  rw [hqueue, tabs_stop]
  by_cases hat : a = t
  · rw [hat, update_self]
    refine .of_idle rfl rfl rfl fun id => ?_
    obtain ⟨heq, hne⟩ | ⟨id', -, heq⟩ := hheld
    · rw [heq]
      exact hne id
    · rw [heq]
      exact nofun
  · rw [update_of_ne hat]
    obtain ⟨heq, -⟩ | ⟨id', hold, heq⟩ := hheld
    · rw [heq]
      exact h a
    · rw [heq]
      refine (h a).frame (fun id => ?_) (Or.imp_right fun ⟨id, hid⟩ => ?_)
      · rw [hold]
        exact ⟨nofun, fun hsome => absurd
          (congrArg (fun x => x.1.tab) (some.inj hsome)).symm hat⟩
      · exact nomatch hold.symm.trans hid

/-- A tab is closed. -/
theorem Locked.disappear : (s.disappear t).Locked := by
  intro a
  show LocksBy a (update s.tabs t .closed a) (s.queue.filter (·.tab ≠ t))
    (s.held.filter fun held => held.1.tab ≠ t)
  by_cases hat : a = t
  · rw [hat, update_self]
    refine .of_idle rfl rfl rfl fun id heq => ?_
    exact of_decide_eq_true (filter_eq_some_iff.mp heq).2 rfl
  · rw [update_of_ne hat]
    have hkeep : ∀ id phase, s.held.filter (fun held => held.1.tab ≠ t) = some (⟨id, a⟩, phase) ↔
        s.held = some (⟨id, a⟩, phase) := fun id phase => by
      rw [filter_eq_some_iff]
      exact and_iff_left (decide_eq_true hat)
    refine (h a).frame (fun id => hkeep id _) (Or.imp ?_ ?_)
    · rintro ⟨r, hr, rfl⟩
      exact ⟨r, mem_filter.mpr ⟨hr, decide_eq_true hat⟩, rfl⟩
    · rintro ⟨id, hid⟩
      exact ⟨id, (hkeep id _).mpr hid⟩

/-- A request that waits is given the lock. -/
theorem Locked.grant {i : ℕ} (hr : s.queue[i]? = some r) (hfree : s.held = none) :
    Locked { s with queue := s.queue.eraseIdx i, held := some (r, .granted) } := by
  intro a
  refine (h a).frame (fun id => ?_) fun hasked => ?_
  · rw [hfree]
    exact ⟨nofun, nofun⟩
  · obtain ⟨x, hx, hxa⟩ | ⟨id, hid⟩ := hasked
    · obtain ⟨j, hj⟩ := mem_iff_getElem?.mp hx
      by_cases hij : j = i
      · rw [hij, hr] at hj
        cases hj
        exact .inr ⟨r.id, by rw [← hxa]⟩
      · exact .inl ⟨x, mem_eraseIdx_iff_getElem?.mpr ⟨j, hij, hj⟩, hxa⟩
    · exact nomatch hfree.symm.trans hid

/-- The callback is called. -/
theorem Locked.callback (hr : s.held = some (r, .granted)) :
    (s.callback r).Locked := by
  have hnone : ∀ a id, s.held ≠ some (⟨id, a⟩, .pending) := fun a id heq =>
    nomatch hr.symm.trans heq
  have hgranted : ∀ a, a ≠ r.tab → ∀ id, s.held ≠ some (⟨id, a⟩, .granted) := fun a ha id heq =>
    ha (congrArg (fun x => x.1.tab) (some.inj (hr.symm.trans heq))).symm
  intro a
  unfold NotifierState.callback
  split
  · next hrunning =>
    by_cases hat : a = r.tab
    · subst hat
      show LocksBy r.tab (update s.tabs r.tab _ r.tab) s.queue (some (r, .pending))
      rw [update_self]
      refine ⟨fun id => ⟨fun heq => ?_, fun heq => ?_⟩, rfl, fun _ => hrunning, fun _ => .inl rfl⟩
      · rw [← some.inj heq]
      · exact congrArg (fun x : LockRequest × LockPhase => some x.1.id) (some.inj heq)
    · show LocksBy a (update s.tabs r.tab _ a) s.queue (some (r, .pending))
      rw [update_of_ne hat]
      refine (h a).frame (fun id => ⟨fun heq => ?_, fun heq => absurd heq (hnone a id)⟩)
        (Or.imp_right fun ⟨id, hid⟩ => absurd hid (hgranted a hat id))
      exact absurd (congrArg (fun x => x.1.tab) (some.inj heq)).symm hat
  · next hrunning =>
    show LocksBy a (s.tabs a) s.queue (some (r, .settled))
    by_cases hat : a = r.tab
    · have hidle : (s.tabs a).running = false := by
        rw [hat]
        exact eq_false_of_not_eq_true hrunning
      have hleader : (s.tabs a).leader = false :=
        eq_false_of_not_eq_true fun ht => absurd ((h a).running ht) (by rw [hidle]; nofun)
      exact .of_idle hidle hleader ((h a).releaseLock_eq_none hleader) fun _ => nofun
    · exact (h a).frame (fun id => ⟨nofun, fun heq => absurd heq (hnone a id)⟩)
        (Or.imp_right fun ⟨id, hid⟩ => absurd hid (hgranted a hat id))

theorem Locked.release (hr : s.held = some (r, .settled)) :
    Locked { s with held := none } := fun a =>
  (h a).frame (fun _ => ⟨nofun, fun heq => nomatch hr.symm.trans heq⟩)
    (Or.imp_right fun ⟨_, hid⟩ => nomatch hr.symm.trans hid)

theorem Locked.congr (hqueue : s'.queue = s.queue) (hheld : s'.held = s.held)
    (htabs : ∀ t, (s'.tabs t).running = (s.tabs t).running ∧
      (s'.tabs t).leader = (s.tabs t).leader ∧
      (s'.tabs t).releaseLock = (s.tabs t).releaseLock) : s'.Locked := by
  intro t
  obtain ⟨hrunning, hleader, hrelease⟩ := htabs t
  rw [hqueue, hheld]
  exact (h t).congr hrunning hleader hrelease

/-! ## What tabs know of each other -/

omit h

/-- **What a running tab will know of another is whether it is visible**, or the other will still
answer its hello; of a tab that does not run it will not know that it is visible. -/
structure Known (s : NotifierState) : Prop where
  nodup : s.channels.Nodup
  opened : ∀ t, t ∈ s.channels ↔ (s.tabs t).running = true
  watching : ∀ t, (s.tabs t).watching = (s.tabs t).running
  posts : ∀ e ∈ s.posts, e.data.tab = e.sender ∧ e.sender ≠ e.receiver ∧ e.receiver ∈ s.channels
  own : ∀ t, (s.tabs t).others.lookup t = none
  running : ∀ a b, a ≠ b → a ∈ s.channels → b ∈ s.channels →
    s.view a b = some (s.tabs b).visible ∨ s.view a b = none ∧ s.Greets a b
  stopped : ∀ a b, a ∈ s.channels → b ∉ s.channels → s.view a b ≠ some true

/-- A step that writes nothing of what tabs know. -/
theorem Known.congr (h : s.Known) (hchannels : s'.channels = s.channels)
    (hposts : s'.posts = s.posts)
    (htabs : ∀ t, (s'.tabs t).running = (s.tabs t).running ∧
      (s'.tabs t).watching = (s.tabs t).watching ∧ (s'.tabs t).others = (s.tabs t).others ∧
      (s'.tabs t).visible = (s.tabs t).visible) : s'.Known := by
  have hview : ∀ a b, s'.view a b = s.view a b := fun a b => by
    unfold view
    rw [hposts, (htabs a).2.2.1]
  have hgreets : ∀ a b, s'.Greets a b ↔ s.Greets a b := fun a b => by
    unfold Greets
    rw [hposts]
  refine ⟨hchannels ▸ h.nodup, fun t => ?_, fun t => ?_, ?_, fun t => ?_, fun a b =>
    ?_, fun a b => ?_⟩
  · rw [hchannels, (htabs t).1]
    exact h.opened t
  · rw [(htabs t).1, (htabs t).2.1]
    exact h.watching t
  · rw [hposts, hchannels]
    exact h.posts
  · rw [(htabs t).2.2.1]
    exact h.own t
  · rw [hchannels, hview, hgreets, (htabs b).2.2.2]
    exact h.running a b
  · rw [hchannels, hview]
    exact h.stopped a b

theorem Known.between_eq_nil (h : s.Known) (ha : a ∉ s.channels) : Sent.between s.posts b a = [] :=
  eq_nil_iff_forall_not_mem.mpr fun _ hm => ha (h.posts _ (mem_between.mp hm)).2.2

/-- A tab starts. -/
theorem Known.start (h : s.Known) : (s.start t).Known := by
  unfold NotifierState.start
  split
  · exact h
  next hrunning =>
  have ht : t ∉ s.channels := fun hmem => hrunning ((h.opened t).mp hmem)
  let opened : NotifierState := { s.setTab t
      { s.tabs t with running := true, others := ∅, watching := true } with
    channels := s.channels ++ [t] }
  have hnodup : opened.channels.Nodup :=
    List.Nodup.append h.nodup (nodup_singleton t) (disjoint_singleton.mpr ht)
  have hself : t ∈ opened.channels := mem_append_right _ (.head _)
  have hold : ∀ a, a ≠ t → (a ∈ opened.channels ↔ a ∈ s.channels) := fun a hat => by
    rw [mem_append, mem_singleton]
    exact or_iff_left hat
  -- of what was known before, only what the tab itself knew is forgotten
  have hview : ∀ a b, a ≠ t → opened.view a b = s.view a b := fun a b hat => by
    unfold view
    rw [show opened.tabs a = s.tabs a from setTab_of_ne hat]
    rfl
  have hfresh : ∀ b, opened.view t b = none := fun b => by
    unfold view
    rw [show opened.posts = s.posts from rfl, h.between_eq_nil ht,
      show opened.tabs t = _ from setTab_self _]
    rfl
  refine Known.congr (s := opened.postMessage t (.hello t (s.tabs t).visible)) ?_ rfl rfl
    fun _ => ⟨rfl, rfl, rfl, rfl⟩
  refine ⟨?_, fun a => ?_, fun a => ?_, fun e he => ?_, fun a => ?_, fun a b hne ha hb => ?_,
    fun a b ha hb => ?_⟩
  all_goals simp only [postMessage_channels, postMessage_tabs] at *
  · exact hnodup
  · by_cases hat : a = t
    · rw [hat, show opened.tabs t = _ from setTab_self _]
      exact ⟨fun _ => rfl, fun _ => hself⟩
    · rw [hold a hat, show opened.tabs a = s.tabs a from setTab_of_ne hat]
      exact h.opened a
  · by_cases hat : a = t
    · rw [hat, show opened.tabs t = _ from setTab_self _]
    · rw [show opened.tabs a = s.tabs a from setTab_of_ne hat]
      exact h.watching a
  · obtain hmem | ⟨hsender, hdata, hne, hopen⟩ := mem_postMessage he
    · obtain ⟨htab, hne, hopen⟩ := h.posts e hmem
      exact ⟨htab, hne, mem_append_left _ hopen⟩
    · rw [hsender, hdata]
      exact ⟨rfl, hne.symm, hopen⟩
  · by_cases hat : a = t
    · rw [hat, show opened.tabs t = _ from setTab_self _]
      rfl
    · rw [show opened.tabs a = s.tabs a from setTab_of_ne hat]
      exact h.own a
  · by_cases hat : a = t
    · -- the others have the hello on its way
      subst hat
      refine .inr ⟨?_, (s.tabs a).visible, ?_⟩
      · rw [view_postMessage_of_ne hne.symm]
        exact hfresh b
      · rw [between_postMessage_self hnodup hself hb hne.symm]
        exact mem_append_right _ (.head _)
    · by_cases hbt : b = t
      · subst hbt
        rw [view_postMessage_self hnodup hself ha hat, show opened.tabs b = _ from setTab_self _]
        exact .inl rfl
      · rw [view_postMessage_of_ne hbt, hview a b hat,
          show opened.tabs b = s.tabs b from setTab_of_ne hbt]
        exact (h.running a b hne ((hold a hat).mp ha) ((hold b hbt).mp hb)).imp_right
          (And.imp_right fun hgreets => greets_postMessage_of_ne (s := opened) hat hgreets)
  · have hbt : b ≠ t := fun heq => hb (heq ▸ hself)
    rw [view_postMessage_of_ne hbt]
    by_cases hat : a = t
    · rw [hat, hfresh]
      exact nofun
    · rw [hview a b hat]
      exact h.stopped a b ((hold a hat).mp ha) fun hmem => hb ((hold b hbt).mpr hmem)

/-- Whatever becomes of the lock, a tab that stops says so and closes its channel. -/
theorem exists_stop_eq : ∃ held, s.stop t = { ((s.setTab t { s.tabs t with
      running := false, leader := false, releaseLock := none, watching := false }).postMessage t
        (.bye t)).close t with held } := by
  have hresolve : ∃ held, (s.tabs t).releaseLock.elim s (s.resolve t) = { s with held } := by
    cases (s.tabs t).releaseLock with
    | none => exact ⟨s.held, rfl⟩
    | some id =>
      show ∃ held, s.resolve t id = { s with held }
      unfold resolve
      split
      · exact ⟨_, rfl⟩
      · exact ⟨s.held, rfl⟩
  obtain ⟨held, hheld⟩ := hresolve
  refine ⟨held, ?_⟩
  unfold NotifierState.stop
  dsimp only
  rw [hheld]
  unfold postMessage close setTab
  dsimp only
  split <;> rfl

/-- A tab whose channel was closed, and that was heard to say so or to be hidden. -/
theorem Known.closes (h : s.Known) (tab : NotifierTab) (hrunning : tab.running = false)
    (hwatching : tab.watching = false) (hown : tab.others.lookup t = none)
    {posted : NotifierState} (htabs : posted.tabs = update s.tabs t tab)
    (hchannels : posted.channels = s.channels)
    (hposts : ∀ e ∈ posted.posts, e.data.tab = e.sender ∧ e.sender ≠ e.receiver ∧
      e.receiver ∈ s.channels)
    (hview : ∀ a b, a ≠ t → b ≠ t → posted.view a b = s.view a b)
    (hgreets : ∀ a b, a ≠ t → b ≠ t → s.Greets a b → posted.Greets a b)
    (hleft : ∀ a, a ≠ t → a ∈ s.channels → posted.view a t ≠ some true) :
      (posted.close t).Known := by
  have hopen : ∀ a, a ∈ (posted.close t).channels ↔ a ∈ s.channels ∧ a ≠ t := fun a => by
    show a ∈ posted.channels.filter (· ≠ t) ↔ _
    rw [hchannels, mem_filter, decide_eq_true_iff]
  have hself : (posted.close t).tabs t = tab := by
    show posted.tabs t = tab
    rw [htabs, update_self]
  have hother : ∀ a, a ≠ t → (posted.close t).tabs a = s.tabs a := fun a hat => by
    show posted.tabs a = s.tabs a
    rw [htabs, update_of_ne hat]
  refine ⟨?_, fun a => ?_, fun a => ?_, fun e he => ?_, fun a => ?_, fun a b hne ha hb => ?_,
    fun a b ha hb => ?_⟩
  · exact (hchannels ▸ h.nodup).filter _
  · rw [hopen]
    by_cases hat : a = t
    · rw [hat, hself, hrunning]
      exact ⟨fun hmem => absurd rfl hmem.2, nofun⟩
    · rw [hother a hat, and_iff_left hat]
      exact h.opened a
  · by_cases hat : a = t
    · rw [hat, hself, hrunning, hwatching]
    · rw [hother a hat]
      exact h.watching a
  · obtain ⟨hmem, hreceiver⟩ := mem_withoutReceiver.mp he
    obtain ⟨htab, hne, hmem⟩ := hposts e hmem
    exact ⟨htab, hne, (hopen _).mpr ⟨hmem, hreceiver⟩⟩
  · by_cases hat : a = t
    · rw [hat, hself]
      exact hown
    · rw [hother a hat]
      exact h.own a
  · obtain ⟨ha, hat⟩ := (hopen a).mp ha
    obtain ⟨hb, hbt⟩ := (hopen b).mp hb
    rw [view_close_of_ne hat, hview a b hat hbt, hother b hbt]
    exact (h.running a b hne ha hb).imp_right
      (And.imp_right fun hg => greets_close_of_ne hbt (hgreets a b hat hbt hg))
  · obtain ⟨ha, hat⟩ := (hopen a).mp ha
    rw [view_close_of_ne hat]
    by_cases hbt : b = t
    · exact hbt ▸ hleft a hat ha
    · rw [hview a b hat hbt]
      exact h.stopped a b ha fun hmem => hb ((hopen b).mpr ⟨hmem, hbt⟩)

/-- A tab stops: it says goodbye. -/
theorem Known.stop (h : s.Known) : (s.stop t).Known := by
  obtain ⟨held, heq⟩ := exists_stop_eq (s := s) (t := t)
  rw [heq]
  refine Known.congr (s := NotifierState.close _ t) ?_ rfl rfl fun _ => ⟨rfl, rfl, rfl, rfl⟩
  refine h.closes (t := t) { s.tabs t with
      running := false, leader := false, releaseLock := none, watching := false } rfl rfl (h.own t)
    postMessage_tabs postMessage_channels
    (fun e he => ?_) (fun a b hat hbt => ?_) (fun a b hat hbt hg => ?_) fun a hat ha => ?_
  · obtain hmem | ⟨hsender, hdata, hne, hopen⟩ := mem_postMessage he
    · exact h.posts e hmem
    · rw [hsender, hdata]
      exact ⟨rfl, hne.symm, hopen⟩
  · rw [view_postMessage_of_ne hbt]
    exact view_setTab_of_others rfl
  · exact greets_postMessage_of_ne hat hg
  · by_cases ht : t ∈ s.channels
    · rw [view_postMessage_self (s := s.setTab t _) h.nodup ht ha hat]
      exact nofun
    · refine fun heq => h.stopped a t ha ht (Eq.trans (Eq.symm ?_) heq)
      unfold postMessage
      rw [if_neg (show t ∉ (s.setTab t _).channels from ht)]
      exact view_setTab_of_others rfl

/-- A tab is closed: it was heard to be hidden. -/
theorem Known.disappear (h : s.Known) (hhidden : ¬(s.tabs t).visible = true) :
    (s.disappear t).Known := by
  refine Known.congr (s := (s.setTab t .closed).close t) ?_ rfl rfl fun _ => ⟨rfl, rfl, rfl, rfl⟩
  have hview : ∀ a b, a ≠ t → (s.setTab t .closed).view a b = s.view a b := fun a b hat => by
    unfold view
    rw [setTab_of_ne hat]
    rfl
  refine h.closes (t := t) .closed rfl rfl rfl rfl rfl h.posts (fun a b hat _ => hview a b hat)
    (fun a b _ _ hg => hg) fun a hat ha => ?_
  rw [hview a t hat]
  by_cases ht : t ∈ s.channels
  · obtain heq | ⟨heq, -⟩ := h.running a t hat ha ht
    · rw [heq]
      exact fun hsome => hhidden (some.inj hsome)
    · rw [heq]
      exact nofun
  · exact h.stopped a t ha ht

/-- What a tab shows changes, as far as the tab itself goes. -/
theorem Known.fields_of_visible {tab : NotifierTab} (hrunning : tab.running = (s.tabs t).running)
    (hwatching : tab.watching = (s.tabs t).watching) (hothers : tab.others = (s.tabs t).others)
    (a : Ulid) : ((s.setTab t tab).tabs a).running = (s.tabs a).running ∧
      ((s.setTab t tab).tabs a).watching = (s.tabs a).watching ∧
      ((s.setTab t tab).tabs a).others = (s.tabs a).others := by
  by_cases hat : a = t
  · rw [hat, setTab_self]
    exact ⟨hrunning, hwatching, hothers⟩
  · rw [setTab_of_ne hat]
    exact ⟨rfl, rfl, rfl⟩

/-- A tab says what it shows. -/
theorem Known.posts_visibility (h : s.Known) {tab : NotifierTab}
    (hrunning : tab.running = (s.tabs t).running) (hwatching : tab.watching = (s.tabs t).watching)
    (hothers : tab.others = (s.tabs t).others) (ht : t ∈ s.channels) :
    ((s.setTab t tab).postMessage t (.visibility t tab.visible)).Known := by
  have hfields := fields_of_visible hrunning hwatching hothers
  have hview : ∀ a b, (s.setTab t tab).view a b = s.view a b := fun a b =>
    view_setTab_of_others hothers
  refine ⟨?_, fun a => ?_, fun a => ?_, fun e he => ?_, fun a => ?_, fun a b hne ha hb => ?_,
    fun a b ha hb => ?_⟩
  all_goals simp only [postMessage_channels, postMessage_tabs] at *
  · exact h.nodup
  · rw [(hfields a).1]
    exact h.opened a
  · rw [(hfields a).1, (hfields a).2.1]
    exact h.watching a
  · obtain hmem | ⟨hsender, hdata, hne, hopen⟩ := mem_postMessage he
    · exact h.posts e hmem
    · rw [hsender, hdata]
      exact ⟨rfl, hne.symm, hopen⟩
  · rw [(hfields a).2.2]
    exact h.own a
  · by_cases hbt : b = t
    · subst hbt
      rw [view_postMessage_self (s := s.setTab b tab) h.nodup ht ha hne, setTab_self]
      exact .inl rfl
    · rw [view_postMessage_of_ne hbt, hview, setTab_of_ne hbt]
      refine (h.running a b hne ha hb).imp_right (And.imp_right fun hg => ?_)
      by_cases hat : a = t
      · subst hat
        exact greets_postMessage_self (s := s.setTab a tab) h.nodup ht hb hne.symm hg
      · exact greets_postMessage_of_ne (s := s.setTab t tab) hat hg
  · have hbt : b ≠ t := fun heq => hb (heq ▸ ht)
    rw [view_postMessage_of_ne hbt, hview]
    exact h.stopped a b ha hb

/-- What a tab that does not run shows changes, and nobody hears of it. -/
theorem Known.shows_silently (h : s.Known) {tab : NotifierTab}
    (hrunning : tab.running = (s.tabs t).running) (hwatching : tab.watching = (s.tabs t).watching)
    (hothers : tab.others = (s.tabs t).others) (ht : t ∉ s.channels) : (s.setTab t tab).Known := by
  have hfields := fields_of_visible hrunning hwatching hothers
  have hview : ∀ a b, (s.setTab t tab).view a b = s.view a b := fun a b =>
    view_setTab_of_others hothers
  refine ⟨h.nodup, fun a => ?_, fun a => ?_, h.posts, fun a => ?_, fun a b hne ha hb => ?_,
    fun a b ha hb => ?_⟩
  · rw [(hfields a).1]
    exact h.opened a
  · rw [(hfields a).1, (hfields a).2.1]
    exact h.watching a
  · rw [(hfields a).2.2]
    exact h.own a
  · have hbt : b ≠ t := fun heq => ht (heq ▸ hb)
    rw [hview, setTab_of_ne hbt]
    exact h.running a b hne ha hb
  · rw [hview]
    exact h.stopped a b ha hb

theorem Known.setVisible (h : s.Known) {visible : Bool} : (s.setVisible t visible).Known := by
  unfold NotifierState.setVisible
  dsimp only
  split
  · next hwatching =>
    exact h.posts_visibility rfl rfl rfl ((h.opened t).mpr ((h.watching t).symm.trans hwatching))
  · next hwatching =>
    exact h.shows_silently rfl rfl rfl fun hmem =>
      hwatching ((h.watching t).trans ((h.opened t).mp hmem))

/-- A hello that has not come is still on its way. -/
theorem greets_receive
    (hreceive : Sent.receive s.posts b a = some (data, posts)) {x y : Ulid} (h : s.Greets x y)
    (hother : ∀ visible, x = b → y = a → data ≠ .hello b visible) (tab : NotifierTab) :
    (({ s with posts } : NotifierState).setTab a tab).Greets x y := by
  obtain ⟨visible, hmem⟩ := h
  refine ⟨visible, ?_⟩
  show _ ∈ Sent.between posts x y
  by_cases hxy : x = b ∧ y = a
  · obtain ⟨rfl, rfl⟩ := hxy
    rw [between_receive hreceive] at hmem
    exact (mem_cons.mp hmem).resolve_left fun heq => hother visible rfl rfl heq.symm
  · rw [between_receive_of_ne hreceive hxy]
    exact hmem

/-- Only a hello is answered, with what the tab shows. -/
theorem answer_eq_some {tab : NotifierTab} {m : VisibilityMessage}
    (h : tab.answer t data = some m) :
    (∃ visible, data = .hello data.tab visible) ∧ m = .visibility t tab.visible := by
  cases data with
  | hello _ visible =>
    obtain ⟨-, heq⟩ := ite_none_left_eq_some.mp h
    exact ⟨⟨visible, rfl⟩, (some.inj heq).symm⟩
  | _ => cases h

/-- **A message comes**, and a hello is answered. -/
theorem Known.deliver (h : s.Known) (hreceive : Sent.receive s.posts b a = some (data, posts)) :
      (s.deliver a data posts).Known := by
  obtain ⟨htab, hne, ha⟩ := h.posts _ (mem_of_receive hreceive)
  dsimp only at htab hne ha
  have hposts : ∀ e ∈ posts, e.data.tab = e.sender ∧ e.sender ≠ e.receiver ∧
      e.receiver ∈ s.channels := fun e he => h.posts e (mem_of_mem_receive hreceive he)
  have hview := view_receive hreceive htab hne
  have hgreets := fun x y hg hother =>
    greets_receive (x := x) (y := y) hreceive hg hother ((s.tabs a).onMessage a data)
  have hown : ((s.tabs a).onMessage a data).others.lookup a = none := by
    rw [lookup_onMessage_of_ne (htab.symm ▸ hne.symm)]
    exact h.own a
  have hsame := onMessage_eq a data (s.tabs a)
  have hanswer : (s.tabs a).answer a data = none → ∀ visible, data ≠ .hello b visible := by
    rintro hnone visible rfl
    exact nomatch (if_neg hne).symm.trans hnone
  unfold NotifierState.deliver
  generalize (s.tabs a).onMessage a data = tab at *
  have hfields : ∀ x, ((({ s with posts } : NotifierState).setTab a tab).tabs x).running =
      (s.tabs x).running ∧ ((({ s with posts } : NotifierState).setTab a tab).tabs x).watching =
      (s.tabs x).watching ∧ ((({ s with posts } : NotifierState).setTab a tab).tabs x).visible =
      (s.tabs x).visible ∧
      ((({ s with posts } : NotifierState).setTab a tab).tabs x).others.lookup
        x = none := fun x => by
    by_cases hx : x = a
    · rw [hx, setTab_self]
      refine ⟨?_, ?_, ?_, hown⟩ <;> rw [hsame]
    · rw [setTab_of_ne hx]
      exact ⟨rfl, rfl, rfl, h.own x⟩
  dsimp only
  cases hcase : (s.tabs a).answer a data with
  | none =>
    refine ⟨h.nodup, fun x => ?_, fun x => ?_, hposts, fun x => (hfields x).2.2.2,
      fun x y hxy hx hy => ?_, fun x y hx hy => ?_⟩
    · show _ ↔ ((({ s with posts } : NotifierState).setTab a tab).tabs x).running = true
      rw [(hfields x).1]
      exact h.opened x
    · show ((({ s with posts } : NotifierState).setTab a tab).tabs x).watching =
        ((({ s with posts } : NotifierState).setTab a tab).tabs x).running
      rw [(hfields x).1, (hfields x).2.1]
      exact h.watching x
    · show (({ s with posts } : NotifierState).setTab a tab).view x y =
        some ((({ s with posts } : NotifierState).setTab a tab).tabs y).visible ∨ _
      rw [hview, (hfields y).2.2.1]
      refine (h.running x y hxy hx hy).imp_right fun ⟨heq, hg⟩ => ⟨(hview x y).trans heq, ?_⟩
      exact hgreets x y hg fun visible _ _ => hanswer hcase visible
    · show (({ s with posts } : NotifierState).setTab a tab).view x y ≠ some true
      rw [hview]
      exact h.stopped x y hx hy
  | some =>
    obtain ⟨⟨visible, hhello⟩, rfl⟩ := answer_eq_some hcase
    refine ⟨?_, fun x => ?_, fun x => ?_, fun e he => ?_, fun x => ?_, fun x y hxy hx hy => ?_,
      fun x y hx hy => ?_⟩
    all_goals simp only [elim_some, postMessage_channels, postMessage_tabs] at *
    · exact h.nodup
    · rw [(hfields x).1]
      exact h.opened x
    · rw [(hfields x).1, (hfields x).2.1]
      exact h.watching x
    · obtain hmem | ⟨hsender, hdata, hne, hopen⟩ := mem_postMessage he
      · exact hposts e hmem
      · rw [hsender, hdata]
        exact ⟨rfl, hne.symm, hopen⟩
    · exact (hfields x).2.2.2
    · by_cases hya : y = a
      · subst hya
        rw [view_postMessage_self (s := ({ s with posts } : NotifierState).setTab y tab) h.nodup ha
          hx hxy, (hfields y).2.2.1]
        exact .inl rfl
      · rw [view_postMessage_of_ne hya, hview, (hfields y).2.2.1]
        refine (h.running x y hxy hx hy).imp_right (And.imp_right fun hg => ?_)
        have hstill := hgreets x y hg fun _ _ heq => absurd heq hya
        by_cases hxa : x = a
        · subst hxa
          exact greets_postMessage_self (s := ({ s with posts } : NotifierState).setTab x tab)
            h.nodup ha hy hya hstill
        · exact greets_postMessage_of_ne hxa hstill
    · have hya : y ≠ a := fun heq => hy (heq ▸ ha)
      rw [view_postMessage_of_ne hya, hview]
      exact h.stopped x y hx hy

/-- Tabs that are hidden, none of which was started. -/
def hidden : NotifierState :=
  ⟨fun _ => ⟨false, false, ∅, none, false, false, false⟩, [], [], [], none, 0⟩

end NotifierState

end Hibari
