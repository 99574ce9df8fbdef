import Hibari.HubIndex

/-!
# Who hears what on the hub

A subscription is authorised against the database without the mutex, and the
answer may be old by the time the subscription is entered. The hub has two ways
to keep an old answer from outliving the permission.

When the permissions of a user change, `revalidateUser` raises the user's epoch
first and looks at the subscriptions then. What was authorised under an earlier
epoch is not entered any more, so a subscription either is there to be looked
at, or was authorised after the change: `revoked_stays_revoked`, for any
interleaving of any calls, including the connections of the user that come and
go and take the epoch with them.

When a room is deleted, `closeRooms` removes the subscriptions that are there
and raises no epoch. `closed_room_stays_empty` says that this is enough where no
subscription to the room is on its way with an answer from before, and
`subscribed_after_close` that otherwise it is not.
-/

namespace Hibari

open List Function Threads TransitionSystem Bool

/-- The workspace that a topic is in. -/
def Topic.InWorkspace (home : Ulid → Ulid) (workspaceId : Ulid) : Topic → Prop
  | .room id => home id = workspaceId
  | .workspace id => id = workspaceId

/-! ## How the hub goes on -/

/-- **What a hub may become**: connections come and keep their user, and none
is registered again; and while a connection is registered, the epoch of its user
does not go back. -/
structure Hub.Later (h h' : Hub) : Prop where
  next_le : h.next ≤ h'.next
  userOf : ∀ c < h.next, h'.userOf c = h.userOf c
  registered : ∀ c < h.next, (h'.records c).registered = true → (h.records c).registered = true
  epochs : ∀ c < h.next, (h'.records c).registered = true →
    h.epochs (h.userOf c) ≤ h'.epochs (h.userOf c)

namespace Hub.Later

variable {home : Ulid → Ulid} {h : Hub}

theorem refl (h : Hub) : h.Later h :=
  ⟨le_rfl, fun _ _ => rfl, fun _ _ => id, fun _ _ _ => le_rfl⟩

theorem register (h : Hub) (id : Identity) : h.Later (h.register id) := by
  have hold : ∀ c < h.next, (h.register id).records c = h.records c := fun c hc => by
    rw [records_register, if_neg (Nat.ne_of_lt hc)]
  refine ⟨Nat.le_succ _, fun c hc => ?_, fun c hc hreg => ?_, fun c hc _ => le_rfl⟩
  · rw [Hub.userOf, Hub.userOf, hold c hc]
  · rwa [hold c hc] at hreg

theorem unregister (hc : h.Consistent home) (c : ClientId) : h.Later (h.unregister c) := by
  refine ⟨le_rfl, fun d _ => userOf_unregister h c d,
    fun d _ hreg => ((registered_unregister h c d).mp hreg).1, fun d _ hreg => ?_⟩
  show h.epochs (h.userOf d) ≤ (if h.byUser.removeFrom (h.userOf c) c (h.userOf c) = none then
    update h.epochs (h.userOf c) 0 else h.epochs) (h.userOf d)
  split
  · next hnone =>
    -- the epoch goes with the last connection, and this one is still there
    have hne : h.userOf d ≠ h.userOf c := by
      intro heq
      have hmem := ((hc.unregister c).byUser (h.userOf c) d).mpr
        ⟨hreg, (userOf_unregister h c d).trans heq⟩
      have hempty : (h.unregister c).byUser.at_ (h.userOf c) = ∅ := Index.at_eq_of_none hnone
      rw [hempty] at hmem
      exact Finset.notMem_empty d hmem
    rw [update_of_ne hne]
  · exact le_rfl

theorem enter (h : Hub) (c : ClientId) (t : Topic) (w : Ulid) : h.Later (h.enter c t w) := by
  refine ⟨le_rfl, fun d _ => userOf_enter h c d t w, fun d _ hreg => ?_, fun _ _ _ => le_rfl⟩
  rwa [registered_enter] at hreg

theorem drop (h : Hub) (who : Finset ClientId) (p : ClientId → Topic → Bool) :
    h.Later (h.drop who p) := by
  refine ⟨le_rfl, fun d _ => userOf_drop h who p d, fun d _ hreg => ?_, fun _ _ _ => le_rfl⟩
  rwa [registered_drop] at hreg

theorem bumpEpoch (h : Hub) (userId : Ulid) : h.Later (h.bumpEpoch userId) := by
  refine ⟨le_rfl, fun _ _ => rfl, fun _ _ => id, fun c _ _ => ?_⟩
  show h.epochs (h.userOf c) ≤ update h.epochs userId (h.epochs userId + 1) (h.userOf c)
  by_cases hu : h.userOf c = userId
  · rw [hu, update_self]
    exact Nat.le_succ _
  · rw [update_of_ne hu]

theorem closeDrained (h : Hub) : h.Later h.closeDrained := by
  unfold Hub.closeDrained
  split
  · exact ⟨le_rfl, fun _ _ => rfl, fun _ _ => id, fun _ _ _ => le_rfl⟩
  · exact refl h

theorem shutdown (h : Hub) : h.Later h.shutdown := by
  obtain ⟨hnext, huser, hreg, hepochs⟩ := closeDrained { h with shuttingDown := true }
  exact ⟨hnext, huser, hreg, hepochs⟩

theorem finishUnregister (h : Hub) : h.Later h.finishUnregister := by
  obtain ⟨hnext, huser, hreg, hepochs⟩ :=
    closeDrained { h with unregistering := h.unregistering - 1 }
  exact ⟨hnext, huser, hreg, hepochs⟩

end Hub.Later

open Hub.Later

theorem records_closeDrained (h : Hub) : h.closeDrained.records = h.records := by
  unfold Hub.closeDrained
  split <;> rfl

section Moves

variable {home : Ulid → Ulid} {ok : Bool} {w w' : World} {t t' : HubTask}
  (hmove : Moves home ok w t w' t')
include hmove

/-- A step of a call makes the hub a later one. -/
theorem Moves.later (hc : w.hub.Consistent home) : w.hub.Later w'.hub := by
  cases hmove with
  | registerEnter id => exact register _ id
  | enter c topic _ workspaceId => exact Hub.Later.enter _ c topic workspaceId
  | unregister c => exact Hub.Later.unregister hc c
  | unregistered => exact finishUnregister _
  | nothing userId | revalidate userId =>
    exact bumpEpoch _ userId
  | removeDisallowed =>
    exact drop _ _ _
  | unsubscribe | closeRooms => exact drop _ _ _
  | _ => exact refl _

theorem Moves.may_eq : w'.may = w.may := by
  cases hmove <;> rfl

/-- **Only entering subscribes**: what a registered connection is subscribed to
after a step it was subscribed to before, unless the step entered it. -/
theorem Moves.subscribed {c : ClientId}
     {topic : Topic} (hreg : (w'.hub.records c).registered = true)
    (hsub : (w'.hub.records c).subscribed topic = true) :
    ((w.hub.records c).registered = true ∧ (w.hub.records c).subscribed topic = true
      ∧ w'.hub.userOf c = w.hub.userOf c) ∨
    ((w.hub.records c).registered = true ∧ w'.hub.userOf c = w.hub.userOf c ∧
      ∃ workspaceId, t = .enter c topic (w.hub.epochs (w.hub.userOf c)) workspaceId) := by
  cases hmove with
  | registerEnter id =>
    by_cases hnew : c = w.hub.next
    · have hself : (w.hub.register id).records c = ⟨id, ∅, ∅, true⟩ := by
        rw [Hub.records_register, if_pos hnew]
      have hsub' : ((w.hub.register id).records c).subscribed topic = true := hsub
      rw [hself] at hsub'
      cases topic <;> simp [Client.subscribed] at hsub'
    · have hold : (w.hub.register id).records c = w.hub.records c := by
        rw [Hub.records_register, if_neg hnew]
      have hreg' : ((w.hub.register id).records c).registered = true := hreg
      have hsub' : ((w.hub.register id).records c).subscribed topic = true := hsub
      rw [hold] at hreg' hsub'
      refine .inl ⟨hreg', hsub', ?_⟩
      show (w.hub.register id).userOf c = w.hub.userOf c
      rw [Hub.userOf, Hub.userOf, hold]
  | enter d topic' _ workspaceId hepoch =>
    have hreg' : ((w.hub.enter d topic' workspaceId).records c).registered = true := hreg
    rw [Hub.registered_enter] at hreg'
    rcases (Hub.subscribed_enter w.hub d c topic' topic workspaceId).mp hsub with hold | ⟨rfl, rfl⟩
    · exact .inl ⟨hreg', hold, Hub.userOf_enter _ _ _ _ _⟩
    · exact .inr ⟨hreg', Hub.userOf_enter _ _ _ _ _, workspaceId, by rw [hepoch]⟩
  | unregister d =>
    have hreg' := (Hub.registered_unregister w.hub d c).mp hreg
    have hold : (w.hub.unregister d).records c = w.hub.records c := by
      rw [Hub.records_unregister, if_neg hreg'.2]
    have hsub' : ((w.hub.unregister d).records c).subscribed topic = true := hsub
    rw [hold] at hsub'
    exact .inl ⟨hreg'.1, hsub', Hub.userOf_unregister _ _ _⟩
  | unregistered =>
    have hrecords : w.hub.finishUnregister.records = w.hub.records := records_closeDrained _
    have hreg' : (w.hub.finishUnregister.records c).registered = true := hreg
    have hsub' : (w.hub.finishUnregister.records c).subscribed topic = true := hsub
    rw [hrecords] at hreg' hsub'
    refine .inl ⟨hreg', hsub', ?_⟩
    show w.hub.finishUnregister.userOf c = w.hub.userOf c
    rw [Hub.userOf, Hub.userOf, hrecords]
  | unsubscribe d topic' hsubd
  | removeDisallowed userId rooms workspaces allowedRooms allowedWorkspaces next
  | closeRooms =>
    have hreg' := (Hub.registered_drop w.hub _ _ c).symm.trans hreg
    exact .inl ⟨hreg', ((Hub.subscribed_drop w.hub _ _ c topic).mp hsub).1, Hub.userOf_drop _ _ _ _⟩
  | _ => exact .inl ⟨hreg, hsub, rfl⟩

end Moves

/-! ## Authorisations from before -/

namespace HubTask

variable {channels : Multiset Channel} {next : HubTask}

/-- **No call is ahead of the hub**: the connections a call names are there,
and the epoch it read is not above the epoch of a registered connection. -/
def Behind (h : Hub) : HubTask → Prop
  | .subscribe c _ => c < h.next
  | .authorize c _ epoch =>
    c < h.next ∧ ((h.records c).registered = true → epoch ≤ h.epochs (h.userOf c))
  | .acquire c _ epoch _ =>
    c < h.next ∧ ((h.records c).registered = true → epoch ≤ h.epochs (h.userOf c))
  | .enter c _ epoch _ =>
    c < h.next ∧ ((h.records c).registered = true → epoch ≤ h.epochs (h.userOf c))
  | .release _ next => next.Behind h
  | .revalidate _ _ next => next.Behind h
  | .allowedRooms _ _ _ next => next.Behind h
  | .allowedWorkspaces _ _ _ _ next => next.Behind h
  | .removeDisallowed _ _ _ _ _ next => next.Behind h
  | _ => True

/-- **A call brings no old answer**: for a topic and the users in `p`, an
authorisation that it has not entered yet is from an earlier epoch, or its
connection is gone. -/
def Void (h : Hub) (p : Ulid → Prop) (t : Topic) : HubTask → Prop
  | .acquire c t' epoch _ => t' = t → p (h.userOf c) → (h.records c).registered = true →
    epoch < h.epochs (h.userOf c)
  | .enter c t' epoch _ => t' = t → p (h.userOf c) → (h.records c).registered = true →
    epoch < h.epochs (h.userOf c)
  | .release _ next => next.Void h p t
  | .revalidate _ _ next => next.Void h p t
  | .allowedRooms _ _ _ next => next.Void h p t
  | .allowedWorkspaces _ _ _ _ next => next.Void h p t
  | .removeDisallowed _ _ _ _ _ next => next.Void h p t
  | _ => True

variable {h h' : Hub} {p : Ulid → Prop} {topic : Topic}

theorem behind_releasing (hnext : next.Behind h) : (releasing channels next).Behind h := by
  unfold releasing
  split
  · exact hnext
  · exact hnext

theorem void_releasing
    (hnext : next.Void h p topic) : (releasing channels next).Void h p topic := by
  unfold releasing
  split
  · exact hnext
  · exact hnext

/-- A call that is not ahead of the hub is not ahead of a later one. -/
theorem Behind.later {t : HubTask} (ht : t.Behind h) (hlater : h.Later h') : t.Behind h' := by
  have hepoch : ∀ (c : ClientId) (epoch : ℕ),
      (c < h.next ∧ ((h.records c).registered = true → epoch ≤ h.epochs (h.userOf c))) →
      c < h'.next ∧ ((h'.records c).registered = true → epoch ≤ h'.epochs (h'.userOf c)) := by
    rintro c epoch ⟨hc, hle⟩
    refine ⟨Nat.lt_of_lt_of_le hc hlater.next_le, fun hreg => ?_⟩
    rw [hlater.userOf c hc]
    exact (hle (hlater.registered c hc hreg)).trans (hlater.epochs c hc hreg)
  induction t with
  | subscribe => exact Nat.lt_of_lt_of_le ht hlater.next_le
  | authorize c _ epoch | acquire c _ epoch | enter c _ epoch => exact hepoch c epoch ht
  | release _ next ih | revalidate _ _ next ih | allowedRooms _ _ _ next ih
  | allowedWorkspaces _ _ _ _ _ ih | removeDisallowed _ _ _ _ _ _ ih => exact ih ht
  | _ => trivial

/-- What is void stays void. -/
theorem Void.later {t : HubTask} (hvoid : t.Void h p topic) (ht : t.Behind h)
    (hlater : h.Later h') : t.Void h' p topic := by
  have hepoch : ∀ (c : ClientId) (epoch : ℕ) (t' : Topic),
      (t' = topic → p (h.userOf c) → (h.records c).registered = true →
        epoch < h.epochs (h.userOf c)) → c < h.next →
      t' = topic → p (h'.userOf c) → (h'.records c).registered = true →
        epoch < h'.epochs (h'.userOf c) := by
    intro c epoch t' hlt hc heq hp hreg
    rw [hlater.userOf c hc] at hp ⊢
    exact (hlt heq hp (hlater.registered c hc hreg)).trans_le (hlater.epochs c hc hreg)
  induction t with
  | acquire c t' epoch | enter c t' epoch => exact hepoch c epoch t' hvoid ht.1
  | release _ next ih | revalidate _ _ next ih | allowedRooms _ _ _ next ih
  | allowedWorkspaces _ _ _ _ _ ih | removeDisallowed _ _ _ _ _ _ ih => exact ih hvoid ht
  | _ => trivial

/-- Where the epoch has been raised since a call read it, or the connection is
gone, the call is void. -/
theorem void_of_behind {t : HubTask} (ht : t.Behind h) (hlater : h.Later h')
    (hraised : ∀ c < h.next, p (h'.userOf c) → (h'.records c).registered = true →
      h.epochs (h.userOf c) < h'.epochs (h'.userOf c)) : t.Void h' p topic := by
  have hepoch : ∀ (c : ClientId) (epoch : ℕ) (t' : Topic),
      (c < h.next ∧ ((h.records c).registered = true → epoch ≤ h.epochs (h.userOf c))) →
      t' = topic → p (h'.userOf c) → (h'.records c).registered = true →
        epoch < h'.epochs (h'.userOf c) := by
    rintro c epoch t' ⟨hc, hle⟩ - hp hreg
    exact (hle (hlater.registered c hc hreg)).trans_lt (hraised c hc hp hreg)
  induction t with
  | acquire c t' epoch | enter c t' epoch => exact hepoch c epoch t' ht
  | release _ next ih | revalidate _ _ next ih | allowedRooms _ _ _ next ih
  | allowedWorkspaces _ _ _ _ _ ih | removeDisallowed _ _ _ _ _ _ ih => exact ih ht
  | _ => trivial

theorem behind_start {call : Call} (hknown : call.Known h) : call.start.Behind h := by
  cases call with
  | subscribe => exact hknown
  | deliverLocal ev =>
    show (Call.deliverLocalTask ev).Behind h
    unfold Call.deliverLocalTask
    induction ev.accessChanges with
    | nil => trivial
    | cons _ _ ih => exact ih
  | revalidate userIds =>
    show (Call.revalidateTask userIds).Behind h
    clear hknown
    unfold Call.revalidateTask
    induction userIds with
    | nil => trivial
    | cons _ _ ih => exact ih
  | _ => trivial

theorem void_start (call : Call) : call.start.Void h p topic := by
  cases call with
  | deliverLocal ev =>
    show (Call.deliverLocalTask ev).Void h p topic
    unfold Call.deliverLocalTask
    induction ev.accessChanges with
    | nil => trivial
    | cons _ _ ih => exact ih
  | revalidate userIds =>
    show (Call.revalidateTask userIds).Void h p topic
    unfold Call.revalidateTask
    induction userIds with
    | nil => trivial
    | cons _ _ ih => exact ih
  | _ => trivial

end HubTask

open HubTask

section Step

variable {home : Ulid → Ulid} {ok : Bool} {w w' : World} {t t' : HubTask} {p : Ulid → Prop}
  {topic : Topic}

/-- A call that steps is not ahead of the hub after it. -/
theorem Moves.behind (hmove : Moves home ok w t w' t') (hc : w.hub.Consistent home)
    (ht : t.Behind w.hub) : t'.Behind w'.hub := by
  have hlater := hmove.later hc
  cases hmove with
  | subscribe => exact ⟨ht, fun _ => le_rfl⟩
  | retry c t =>
    have hnext : (HubTask.subscribe c t).Behind w.hub := ht.1
    exact behind_releasing hnext
  | nothing =>
    exact HubTask.Behind.later (t := t') ht hlater
  | revalidate _ _ next => exact HubTask.Behind.later (t := next) ht hlater
  | authorize c t epoch workspaceId hmay hhome | acquire c t epoch workspaceId
  | nobody userId scope _ hnone | allowedRooms userId rooms workspaces next
  | allowedRoomsFailed userId rooms workspaces _ hok
  | allowedWorkspaces userId rooms workspaces allowed next
  | allowedWorkspacesFailed => exact ht
  | removeDisallowed _ _ _ _ _ next =>
    exact behind_releasing (HubTask.Behind.later (t := next) ht hlater)
  | registerRefused id | notAdded c t epoch workspaceId | unsubscribe c t hsub
  | unregister | closeRooms => exact behind_releasing trivial
  | _ => trivial

/-- A call that steps is void after it, where it was before and the topic is
not permitted. -/
theorem Moves.void (hmove : Moves home ok w t w' t') (hc : w.hub.Consistent home)
    (ht : t.Behind w.hub) (hmay : ∀ u, p u → w.may u topic = false)
    (hvoid : t.Void w.hub p topic) : t'.Void w'.hub p topic := by
  have hlater := hmove.later hc
  cases hmove with
  | authorize _ _ _ _ hmay' =>
    rintro rfl hp -
    exact absurd ((hmay _ hp).symm.trans hmay') false_ne_true
  | retry c t =>
    have hnext : (HubTask.subscribe c t).Void w.hub p topic := trivial
    exact void_releasing hnext
  | nothing =>
    exact HubTask.Void.later (t := t') hvoid ht hlater
  | revalidate _ _ next => exact HubTask.Void.later (t := next) hvoid ht hlater
  | acquire c t epoch workspaceId | nobody userId scope _ hnone
  | allowedRooms userId rooms workspaces next | allowedRoomsFailed userId rooms workspaces _ hok
  | allowedWorkspaces userId rooms workspaces allowed next
  | allowedWorkspacesFailed => exact hvoid
  | removeDisallowed _ _ _ _ _ next =>
    exact void_releasing (HubTask.Void.later (t := next) hvoid ht hlater)
  | registerRefused id | notAdded c t epoch workspaceId | unsubscribe c t hsub
  | unregister | closeRooms => exact void_releasing trivial
  | _ => trivial

end Step

/-! ## States -/

namespace HubState

variable {home : Ulid → Ulid} {s s' : HubState} {a : HubAction} {p : Ulid → Prop} {topic : Topic}

/-- What holds in every state: the indices agree, and no call is ahead of the
hub. -/
structure Steady (home : Ulid → Ulid) (s : HubState) : Prop extends s.Sound home where
  behind : ∀ t ∈ s.tasks, t.Behind s.world.hub

/-- What a step does to the hub and to the calls. -/
theorem Steady.later (h : s.Steady home) (hs : s.step home a = some s') :
    s.world.hub.Later s'.world.hub := by
  rcases HubState.step_cases hs with ⟨call, rfl, -, rfl⟩ | ⟨i, ok, t, t', w, rfl, ht, hmove, rfl⟩ |
    ⟨i, ch, channels, next, rfl, ht, hmem, rfl⟩ | ⟨rfl, rfl⟩ | ⟨u, t, rfl, rfl⟩ | ⟨u, t, rfl, rfl⟩
  · exact refl _
  · exact hmove.later h.consistent
  · exact refl _
  · exact shutdown _
  · exact refl _
  · exact refl _

/-- A step keeps a state steady. -/
theorem Steady.step (h : s.Steady home) (hs : s.step home a = some s') : s'.Steady home := by
  have hlater := h.later hs
  refine ⟨h.toSound.step hs, ?_⟩
  rcases HubState.step_cases hs with ⟨call, rfl, hknown, rfl⟩ |
    ⟨i, ok, t, t', w, rfl, ht, hmove, rfl⟩ | ⟨i, ch, channels, next, rfl, ht, hmem, rfl⟩ |
    ⟨rfl, rfl⟩ | ⟨u, t, rfl, rfl⟩ | ⟨u, t, rfl, rfl⟩
  · intro t ht
    rcases mem_append.mp ht with ht | ht
    · exact h.behind t ht
    · exact mem_singleton.mp ht ▸ behind_start hknown
  · intro u hu
    rcases mem_set hu with hu | rfl
    · exact (h.behind u hu).later hlater
    · exact hmove.behind h.consistent (h.behind t (mem_of_getElem? ht))
  · intro u hu
    rcases mem_set hu with hu | rfl
    · exact h.behind u hu
    · have hbehind : (HubTask.release channels next).Behind s.world.hub :=
        h.behind _ (mem_of_getElem? ht)
      exact behind_releasing hbehind
  · exact fun t ht => (h.behind t ht).later hlater
  · exact h.behind
  · exact h.behind

theorem steady_of_reachable (h : (hubSystem home).Reachable s) : s.Steady home := by
  refine h.invariant (fun s₀ h₀ => ⟨sound_init h₀, ?_⟩) fun _ _ _ hsteady _ hs => hsteady.step hs
  rw [h₀.2.2.2]
  exact nofun

/-- **A topic is barred to users**: the database permits it to none of them, no
registered connection of theirs is subscribed to it, and no call brings an old
answer. -/
structure Barred (p : Ulid → Prop) (topic : Topic) (s : HubState) : Prop where
  may : ∀ u, p u → s.world.may u topic = false
  empty : ∀ c, (s.world.hub.records c).registered = true → p (s.world.hub.userOf c) →
    (s.world.hub.records c).subscribed topic = false
  void : ∀ t ∈ s.tasks, t.Void s.world.hub p topic

/-- The step does not permit a topic to one of the users. -/
def NotGranted (p : Ulid → Prop) (topic : Topic) : HubAction → Prop
  | .grant u t => p u → t ≠ topic
  | _ => True

instance [DecidablePred p] (topic : Topic) (a : HubAction) : Decidable (NotGranted p topic a) := by
  unfold NotGranted
  split <;> infer_instance

/-- Permissions change only where the database is changed. -/
theorem may_step (hgrant : NotGranted p topic a) (hs : s.step home a = some s') {u : Ulid}
    (hu : p u) (hmay : s.world.may u topic = false) : s'.world.may u topic = false := by
  rcases HubState.step_cases hs with ⟨call, rfl, -, rfl⟩ | ⟨i, ok, t, t', w, rfl, ht, hmove, rfl⟩ |
    ⟨i, ch, channels, next, rfl, ht, hmem, rfl⟩ | ⟨rfl, rfl⟩ | ⟨v, t, rfl, rfl⟩ | ⟨v, t, rfl, rfl⟩
  · exact hmay
  · show w.may u topic = false
    rw [hmove.may_eq]
    exact hmay
  · exact hmay
  · exact hmay
  · show update s.world.may v (update (s.world.may v) t true) u topic = false
    by_cases hv : u = v
    · subst hv
      have ht : topic ≠ t := fun heq => hgrant hu heq.symm
      rw [update_self, update_of_ne ht]
      exact hmay
    · rw [update_of_ne hv]
      exact hmay
  · show update s.world.may v (update (s.world.may v) t false) u topic = false
    by_cases hv : u = v
    · subst hv
      rw [update_self]
      by_cases ht : topic = t
      · subst ht
        exact update_self _ _ _
      · rw [update_of_ne ht]
        exact hmay
    · rw [update_of_ne hv]
      exact hmay

/-- Old answers stay void while the topic is not permitted. -/
theorem void_step (h : s.Steady home) (hmay : ∀ u, p u → s.world.may u topic = false)
    (hvoid : ∀ t ∈ s.tasks, t.Void s.world.hub p topic) (hs : s.step home a = some s') :
    ∀ t ∈ s'.tasks, t.Void s'.world.hub p topic := by
  have hlater := h.later hs
  rcases HubState.step_cases hs with ⟨call, rfl, -, rfl⟩ | ⟨i, ok, t, t', w, rfl, ht, hmove, rfl⟩ |
    ⟨i, ch, channels, next, rfl, ht, hmem, rfl⟩ | ⟨rfl, rfl⟩ | ⟨v, t, rfl, rfl⟩ | ⟨v, t, rfl, rfl⟩
  · intro t ht
    rcases mem_append.mp ht with ht | ht
    · exact hvoid t ht
    · rw [mem_singleton.mp ht]
      exact void_start call
  · intro u hu
    have hmem := mem_of_getElem? ht
    rcases mem_set hu with hu | rfl
    · exact (hvoid u hu).later (h.behind u hu) hlater
    · exact hmove.void h.consistent (h.behind t hmem) hmay (hvoid t hmem)
  · intro u hu
    rcases mem_set hu with hu | rfl
    · exact hvoid u hu
    · have hnext : (HubTask.release channels next).Void s.world.hub p topic :=
        hvoid _ (mem_of_getElem? ht)
      exact void_releasing hnext
  · exact fun t ht => (hvoid t ht).later (h.behind t ht) hlater
  · exact hvoid
  · exact hvoid

/-- **Barred is for good.** Whatever step is taken, a barred topic stays barred
until it is permitted again. -/
theorem Barred.step (hb : Barred p topic s) (h : s.Steady home) (hgrant : NotGranted p topic a)
    (hs : s.step home a = some s') : Barred p topic s' := by
  refine ⟨fun u hu => may_step hgrant hs hu (hb.may u hu), fun c hreg hp => ?_,
    void_step h hb.may hb.void hs⟩
  rcases HubState.step_cases hs with ⟨call, rfl, -, rfl⟩ | ⟨i, ok, t, t', w, rfl, ht, hmove, rfl⟩ |
    ⟨i, ch, channels, next, rfl, ht, hmem, rfl⟩ | ⟨rfl, rfl⟩ | ⟨v, t, rfl, rfl⟩ | ⟨v, t, rfl, rfl⟩
  · exact hb.empty c hreg hp
  · by_contra hsub
    rcases hmove.subscribed hreg (of_not_eq_false hsub) with
      ⟨hreg', hsub', huser⟩ | ⟨hreg', huser, workspaceId, rfl⟩
    · exact false_ne_true ((hb.empty c hreg' (huser ▸ hp)).symm.trans hsub')
    · exact absurd (hb.void _ (mem_of_getElem? ht) rfl (huser ▸ hp) hreg') (Nat.lt_irrefl _)
  · exact hb.empty c hreg hp
  · have hrecords : s.world.hub.shutdown.records = s.world.hub.records := records_closeDrained _
    have hreg' : (s.world.hub.shutdown.records c).registered = true := hreg
    have hp' : p (s.world.hub.shutdown.records c).identity.userId := hp
    show (s.world.hub.shutdown.records c).subscribed topic = false
    rw [hrecords] at hreg' hp' ⊢
    exact hb.empty c hreg' hp'
  · exact hb.empty c hreg hp
  · exact hb.empty c hreg hp

end HubState

open HubState

/-! ## Revocation -/

namespace HubTask

/-- A call will still revalidate a user in a workspace. -/
def Promises (u w : Ulid) : HubTask → Prop
  | .revalidate userId scope next => userId = u ∧ scope = some w ∨ next.Promises u w
  | .allowedRooms _ _ _ next => next.Promises u w
  | .allowedWorkspaces _ _ _ _ next => next.Promises u w
  | .removeDisallowed _ _ _ _ _ next => next.Promises u w
  | .release _ next => next.Promises u w
  | _ => False

/-- Whether a topic is among those that were looked up. -/
def Looked (rooms workspaces : Finset Ulid) : Topic → Prop
  | .room id => id ∈ rooms
  | .workspace id => id ∈ workspaces

/-- A call that revalidates a user has looked up a topic and will find that it
is not allowed. -/
def Underway (u : Ulid) (topic : Topic) : HubTask → Prop
  | .allowedRooms userId rooms workspaces _ => userId = u ∧ Looked rooms workspaces topic
  | .allowedWorkspaces userId rooms workspaces allowed _ =>
    userId = u ∧ Looked rooms workspaces topic ∧ ∀ r, topic = .room r → r ∉ allowed
  | .removeDisallowed userId rooms workspaces mayRooms mayWorkspaces _ =>
    userId = u ∧ disallowed rooms workspaces mayRooms mayWorkspaces topic = true
  | _ => False

theorem promises_releasing {u w : Ulid} {channels : Multiset Channel} {next : HubTask}
    (h : next.Promises u w) : (releasing channels next).Promises u w := by
  unfold releasing
  split
  · exact h
  · exact h

/-- The delivery of an event promises to revalidate whose permissions
changed. -/
theorem promises_deliverLocal {u w : Ulid} {ev : HubEvent}
    (h : AccessChange.mk u w ∈ ev.accessChanges) :
    (Call.start (.deliverLocal ev)).Promises u w := by
  show (Call.deliverLocalTask ev).Promises u w
  unfold Call.deliverLocalTask
  generalize ev.accessChanges = changes at h
  induction changes with
  | nil => cases h
  | cons ch _ ih =>
    rcases mem_cons.mp h with heq | h
    · exact .inl ⟨congrArg AccessChange.userId heq.symm,
        congrArg (fun ch => some ch.workspaceId) heq.symm⟩
    · exact .inr (ih h)

/-- A call that is not ahead of the hub brings no old answer for a user whose
epoch is raised. -/
theorem void_bumpEpoch {h : Hub} {t : HubTask} (ht : t.Behind h) (u : Ulid) (topic : Topic) :
    t.Void (h.bumpEpoch u) (fun v => v = u) topic := by
  refine void_of_behind ht (bumpEpoch h u) fun c _ hu _ => ?_
  have huser : h.userOf c = u := hu
  show h.epochs (h.userOf c) < update h.epochs u (h.epochs u + 1) ((h.bumpEpoch u).userOf c)
  rw [hu, huser, update_self]
  exact Nat.lt_succ_self _

end HubTask

/-- Where a user's connections are not looked up with a topic of a workspace,
no registered one is subscribed to it. -/
theorem Hub.looked_of_subscribed {home : Ulid → Ulid} {h : Hub} (hc : h.Consistent home)
    {c : ClientId} {topic : Topic} {workspaceId : Ulid}
    (htopic : topic.InWorkspace home workspaceId) (hreg : (h.records c).registered = true)
    (hsub : (h.records c).subscribed topic = true) :
    HubTask.Looked (h.scopeRooms (h.userOf c) (some workspaceId))
      (h.scopeWorkspaces (h.userOf c) (some workspaceId)) topic := by
  have hmem : c ∈ h.byUser.at_ (h.userOf c) := (hc.byUser _ c).mpr ⟨hreg, rfl⟩
  cases topic with
  | room r =>
    obtain ⟨w, hw⟩ := Client.subscribed_room_iff.mp hsub
    have hscope : Hub.inScope (some workspaceId) w = true := by
      rw [hc.homes c r w hw]
      exact decide_eq_true (Eq.symm htopic)
    exact Finset.mem_biUnion.mpr ⟨c, hmem,
      Finset.mem_image.mpr ⟨(r, w), Finset.mem_filter.mpr ⟨hw, hscope⟩, rfl⟩⟩
  | workspace =>
    have hw := Client.subscribed_workspace_iff.mp hsub
    exact Finset.mem_biUnion.mpr ⟨c, hmem,
      Finset.mem_filter.mpr ⟨hw, decide_eq_true (Eq.symm htopic)⟩⟩

namespace HubState

variable {home : Ulid → Ulid} {s s' : HubState} {a : HubAction} {topic : Topic} {u w : Ulid} {i : ℕ}

/-- **Where a revocation is.** The call that delivers it has the revalidation
ahead of it, or is in the middle of it and every answer from before is void, or
is past it and the topic is barred. -/
def Revoking (u w : Ulid) (topic : Topic) (i : ℕ) (s : HubState) : Prop :=
  ∃ t, s.tasks[i]? = some t ∧ s.world.may u topic = false ∧ (t.Promises u w ∨
      (t.Underway u topic ∧ ∀ t' ∈ s.tasks, t'.Void s.world.hub (fun v => v = u) topic) ∨
      Barred (fun v => v = u) topic s)

/-- The step does not fail to answer the call at `i`. -/
def Answered (i : ℕ) (a : HubAction) : Prop := a ≠ .advance i false

instance (i : ℕ) (a : HubAction) : Decidable (Answered i a) := by
  unfold Answered
  infer_instance

variable {ok : Bool} {w' : World} {t t' : HubTask}

/-- A call that promises a revalidation keeps the promise or carries it out. -/
theorem promised_advance (h : s.Steady home) (htopic : topic.InWorkspace home w)
    (ht : s.tasks[i]? = some t) (hok : ok = true) (hmove : Moves home ok s.world t w' t')
    (hmay : s.world.may u topic = false) (hpromises : t.Promises u w) :
    t'.Promises u w ∨ (t'.Underway u topic
        ∧ ∀ v ∈ s.tasks.set i t', v.Void w'.hub (fun v => v = u) topic) ∨
      Barred (fun v => v = u) topic ⟨w', s.tasks.set i t'⟩ := by
  have hfails : ok ≠ false := fun hfail => false_ne_true (hfail.symm.trans hok)
  have hmays : ∀ v, v = u → s.world.may v topic = false := fun v hv => by rw [hv, hmay]
  have hbehind := h.behind t (mem_of_getElem? ht)
  cases hmove with
  | ends hreturn => cases t <;> first | exact False.elim hpromises | exact False.elim hreturn
  | nobody userId _ _ hnone =>
    rcases hpromises with ⟨rfl, rfl⟩ | hpromises
    · -- none of the user's connections is here
      have hgone : ∀ c, (s.world.hub.records c).registered = true →
          s.world.hub.userOf c ≠ userId := fun c hreg huser => by
        have hmem := (h.consistent.byUser userId c).mpr ⟨hreg, huser⟩
        rw [Index.at_eq_of_none hnone] at hmem
        exact Finset.notMem_empty c hmem
      refine .inr (.inr ⟨hmays, fun c hreg huser => absurd huser (hgone c hreg), fun v hv => ?_⟩)
      refine void_of_behind ?_ (refl _) fun c _ huser hreg => absurd huser (hgone c hreg)
      rcases mem_set hv with hv | rfl
      · exact h.behind v hv
      · exact hbehind
    · exact .inl hpromises
  | nothing userId _ _ hrooms hworkspaces =>
    rcases hpromises with ⟨rfl, rfl⟩ | hpromises
    · refine .inr (.inr ⟨hmays, fun c hreg huser => ?_, fun v hv => ?_⟩)
      · by_contra hsub
        have huser' : s.world.hub.userOf c = userId := huser
        have hlooked := Hub.looked_of_subscribed h.consistent htopic hreg
          (of_not_eq_false hsub)
        rw [huser', hrooms, hworkspaces] at hlooked
        cases topic <;> exact Finset.notMem_empty _ hlooked
      · rcases mem_set hv with hv | rfl
        · exact void_bumpEpoch (h.behind v hv) userId topic
        · exact void_bumpEpoch (t := v) hbehind userId topic
    · exact .inl hpromises
  | revalidate userId _ next =>
    rcases hpromises with ⟨rfl, rfl⟩ | hpromises
    · have hvoid : ∀ v ∈ s.tasks.set i (.allowedRooms userId
          (s.world.hub.scopeRooms userId (some w)) (s.world.hub.scopeWorkspaces userId (some w))
          next), v.Void (s.world.hub.bumpEpoch userId) (fun v => v = userId) topic := by
        intro v hv
        rcases mem_set hv with hv | rfl
        · exact void_bumpEpoch (h.behind v hv) userId topic
        · exact void_bumpEpoch (t := next) hbehind userId topic
      by_cases hlooked : HubTask.Looked (s.world.hub.scopeRooms userId (some w))
        (s.world.hub.scopeWorkspaces userId (some w)) topic
      · exact .inr (.inl ⟨⟨rfl, hlooked⟩, hvoid⟩)
      · refine .inr (.inr ⟨hmays, fun c hreg huser => ?_, hvoid⟩)
        by_contra hsub
        have huser' : s.world.hub.userOf c = userId := huser
        have hlooked' := Hub.looked_of_subscribed h.consistent htopic hreg
          (of_not_eq_false hsub)
        rw [huser'] at hlooked'
        exact hlooked hlooked'
    · exact .inl hpromises
  | allowedRoomsFailed _ _ _ _ hfail => exact absurd hfail hfails
  | allowedRooms userId rooms workspaces next
  | allowedWorkspaces => exact .inl hpromises
  | allowedWorkspacesFailed _ _ _ _ _ hfail =>
    exact absurd hfail hfails
  | removeDisallowed =>
    exact .inl (promises_releasing hpromises)
  | _ => exact False.elim hpromises

/-- A call that is in the middle of a revalidation goes on and removes what is
not allowed. -/
theorem underway_advance (h : s.Steady home) (hok : ok = true)
    (hmove : Moves home ok s.world t w' t') (hmay : s.world.may u topic = false)
    (hunder : t.Underway u topic)
    (hvoid' : ∀ v ∈ s.tasks.set i t', v.Void w'.hub (fun v => v = u) topic) :
    t'.Underway u topic ∨ Barred (fun v => v = u) topic ⟨w', s.tasks.set i t'⟩ := by
  have hfails : ok ≠ false := fun hfail => false_ne_true (hfail.symm.trans hok)
  cases hmove with
  | ends hreturn => cases t <;> first | exact False.elim hunder | exact False.elim hreturn
  | allowedRooms =>
    obtain ⟨rfl, hlooked⟩ := hunder
    refine .inl ⟨rfl, hlooked, fun r hr hallowed => ?_⟩
    rw [hr] at hmay
    exact false_ne_true (hmay.symm.trans (Finset.mem_filter.mp hallowed).2)
  | allowedRoomsFailed _ _ _ _ hfail => exact absurd hfail hfails
  | allowedWorkspaces =>
    obtain ⟨rfl, hlooked, hnot⟩ := hunder
    refine .inl ⟨rfl, ?_⟩
    cases topic with
    | room r => exact and_eq_true_iff.mpr ⟨decide_eq_true hlooked, decide_eq_true (hnot r rfl)⟩
    | workspace =>
      refine and_eq_true_iff.mpr ⟨decide_eq_true hlooked, decide_eq_true fun hallowed => ?_⟩
      exact false_ne_true (hmay.symm.trans (Finset.mem_filter.mp hallowed).2)
  | allowedWorkspacesFailed _ _ _ _ _ hfail =>
    exact absurd hfail hfails
  | removeDisallowed userId =>
    obtain ⟨rfl, hdisallowed⟩ := hunder
    refine .inr ⟨fun v hv => by rw [hv]; exact hmay, fun c hreg huser => ?_, hvoid'⟩
    by_contra hsub
    have hnot := ((Hub.subscribed_drop s.world.hub _ _ c topic).mp (of_not_eq_false hsub)).2
    have hreg' := (Hub.registered_drop s.world.hub _ _ c).symm.trans hreg
    have huser' := (Hub.userOf_drop s.world.hub _ _ c).symm.trans huser
    exact hnot ⟨(h.consistent.byUser userId c).mpr ⟨hreg', huser'⟩, hdisallowed⟩
  | _ => exact False.elim hunder

/-- **The revocation step lemma**: whatever step is taken, the revocation stays
where it is or goes on. -/
theorem Revoking.step (hr : Revoking u w topic i s) (h : s.Steady home)
    (htopic : topic.InWorkspace home w) (hgrant : NotGranted (fun v => v = u) topic a)
    (hanswered : Answered i a) (hs : s.step home a = some s') : Revoking u w topic i s' := by
  obtain ⟨t, ht, hmay, hwhere⟩ := hr
  have hmay' := may_step hgrant hs rfl hmay
  have hmays : ∀ v, v = u → s.world.may v topic = false := fun v hv => by rw [hv, hmay]
  have hlater := h.later hs
  -- where another call steps, this one is where it was
  have hstays : s'.tasks[i]? = some t → Revoking u w topic i s' := by
    refine fun ht' => ⟨t, ht', hmay', ?_⟩
    rcases hwhere with hpromises | ⟨hunder, hvoid⟩ | hbarred
    · exact .inl hpromises
    · exact .inr (.inl ⟨hunder, void_step h hmays hvoid hs⟩)
    · exact .inr (.inr (hbarred.step h hgrant hs))
  rcases step_cases hs with ⟨call, rfl, -, rfl⟩ | ⟨j, ok, v, v', w', rfl, hv, hmove, rfl⟩ |
    ⟨j, ch, channels, next, rfl, hv, hmem, rfl⟩ | ⟨rfl, rfl⟩ | ⟨v, t, rfl, rfl⟩ | ⟨v, t, rfl, rfl⟩
  · exact hstays (getElem?_append_one ht _)
  · by_cases hj : j = i
    · subst hj
      obtain rfl : t = v := Option.some.inj (ht.symm.trans hv)
      have hok : ok = true := by
        by_contra hfalse
        exact hanswered (by rw [of_not_eq_true hfalse])
      refine ⟨v', (getElem?_set hv v' j).trans (if_pos rfl), hmay', ?_⟩
      rcases hwhere with hpromises | ⟨hunder, hvoid⟩ | hbarred
      · exact promised_advance h htopic ht hok hmove hmay hpromises
      · have hvoid' := void_step h hmays hvoid hs
        rcases underway_advance h hok hmove hmay hunder hvoid' with hunder' | hbarred
        · exact .inr (.inl ⟨hunder', hvoid'⟩)
        · exact .inr (.inr hbarred)
      · exact .inr (.inr (hbarred.step h hgrant hs))
    · exact hstays ((getElem?_set hv v' i).trans ((if_neg hj).trans ht))
  · by_cases hj : j = i
    · subst hj
      obtain rfl : t = .release channels next := Option.some.inj (ht.symm.trans hv)
      refine ⟨releasing (channels.erase ch) next,
        (getElem?_set hv _ j).trans (if_pos rfl), hmay', ?_⟩
      rcases hwhere with hpromises | ⟨hunder, hvoid⟩ | hbarred
      · have hnext : next.Promises u w := hpromises
        exact .inl (promises_releasing hnext)
      · exact hunder.elim
      · exact .inr (.inr (hbarred.step h hgrant hs))
    · exact hstays ((getElem?_set hv _ i).trans ((if_neg hj).trans ht))
  · exact hstays ht
  · exact hstays ht
  · exact hstays ht

/-- **Revoking ends with the topic barred.** -/
theorem barred_of_revoked (h : s.Steady home) (hs : s.tasks[i]? = some t)
    (htopic : topic.InWorkspace home w) (hpromises : t.Promises u w)
    (hmay : s.world.may u topic = false)
    (hrun : (hubSystem home).Steps
      (fun _ a => NotGranted (fun v => v = u) topic a ∧ Answered i a) s s')
    (hdone : s'.tasks[i]? = some .done) : Barred (fun v => v = u) topic s' := by
  have hinv : s'.Steady home ∧ Revoking u w topic i s' := by
    refine hrun.preserves (I := fun s => s.Steady home ∧ Revoking u w topic i s)
      (fun s a s' hinv hP hs => ?_) ⟨h, t, hs, hmay, .inl hpromises⟩
    exact ⟨hinv.1.step hs, hinv.2.step hinv.1 htopic hP.1 hP.2 hs⟩
  obtain ⟨t', ht', -, hwhere⟩ := hinv.2
  obtain rfl : t' = .done := Option.some.inj (ht'.symm.trans hdone)
  rcases hwhere with hpromises | ⟨hunder, -⟩ | hbarred
  · exact False.elim hpromises
  · exact False.elim hunder
  · exact hbarred

end HubState

/-- An event that the connections of a user get for one topic only. -/
def HubEvent.OnlyFor (u : Ulid) (topic : Topic) (ev : HubEvent) : Prop :=
  (∀ r ∈ ev.rooms, Topic.room r = topic) ∧ (∀ w ∈ ev.workspaces, Topic.workspace w = topic)
    ∧ u ∉ ev.users

/-- An event for a topic that is barred to a user goes to no connection of the
user. -/
theorem HubState.Barred.targets {home : Ulid → Ulid} {s : HubState} {u : Ulid} {topic : Topic}
    (hb : Barred (fun v => v = u) topic s) (hc : s.world.hub.Consistent home) {ev : HubEvent}
    (hev : ev.OnlyFor u topic) {c : ClientId} (hmem : c ∈ s.world.hub.targets ev) :
    c < s.world.hub.next ∧ s.world.hub.userOf c ≠ u := by
  have hnone : ∀ t, t = topic → c ∈ s.world.hub.subscribers t →
      (s.world.hub.records c).registered = true ∧ s.world.hub.userOf c ≠ u := by
    rintro t rfl hsub
    obtain ⟨hreg, hsub⟩ := (hc.subscribers t c).mp hsub
    exact ⟨hreg, fun huser => false_ne_true ((hb.empty c hreg huser).symm.trans hsub)⟩
  have hfound : (s.world.hub.records c).registered = true ∧ s.world.hub.userOf c ≠ u := by
    rcases Finset.mem_union.mp (Finset.mem_sdiff.mp hmem).1 with hmem | hmem
    · rcases Finset.mem_union.mp hmem with hmem | hmem
      · obtain ⟨r, hr, hsub⟩ := Finset.mem_biUnion.mp hmem
        exact hnone (.room r) (hev.1 r (mem_toFinset.mp hr)) hsub
      · obtain ⟨w, hw, hsub⟩ := Finset.mem_biUnion.mp hmem
        exact hnone (.workspace w) (hev.2.1 w (mem_toFinset.mp hw)) hsub
    · obtain ⟨v, hv, huser⟩ := Finset.mem_biUnion.mp hmem
      obtain ⟨hreg, rfl⟩ := (hc.byUser v c).mp huser
      exact ⟨hreg, fun heq => hev.2.2 (heq ▸ mem_toFinset.mp hv)⟩
  refine ⟨?_, hfound.2⟩
  by_contra hfresh
  exact false_ne_true ((hc.fresh c (Nat.le_of_not_lt hfresh)).symm.trans hfound.1)

theorem Moves.sent {home : Ulid → Ulid} {ok : Bool} {w w' : World} {t t' : HubTask}
    (hmove : Moves home ok w t w' t') :
    w'.sent = w.sent ∨ ∃ ev, w'.sent = w.sent ++ [(ev, w.hub.targets ev)] := by
  cases hmove with
  | deliver ev | deliverClosed ev => exact .inr ⟨ev, rfl⟩
  | _ => exact .inl rfl

namespace HubState

/-- Nothing that was sent since a moment went to a user for one topic. -/
def Quiet (u : Ulid) (topic : Topic) (n : ℕ) (s : HubState) : Prop :=
  n ≤ s.world.sent.length ∧ ∀ e ∈ s.world.sent.drop n, e.1.OnlyFor u topic →
    ∀ c ∈ e.2, c < s.world.hub.next ∧ s.world.hub.userOf c ≠ u

variable {home : Ulid → Ulid} {s s' : HubState} {a : HubAction} {u : Ulid} {topic : Topic} {n : ℕ}

theorem Quiet.step (hq : Quiet u topic n s) (h : s.Steady home)
    (hb : Barred (fun v => v = u) topic s) (hs : s.step home a = some s') :
    Quiet u topic n s' := by
  have hlater := h.later hs
  have hold : ∀ c, c < s.world.hub.next ∧ s.world.hub.userOf c ≠ u →
      c < s'.world.hub.next ∧ s'.world.hub.userOf c ≠ u := fun c hc =>
    ⟨Nat.lt_of_lt_of_le hc.1 hlater.next_le, by rw [hlater.userOf c hc.1]; exact hc.2⟩
  have hsent : s'.world.sent = s.world.sent ∨
      ∃ ev, s'.world.sent = s.world.sent ++ [(ev, s.world.hub.targets ev)] := by
    rcases step_cases hs with ⟨call, rfl, -, rfl⟩ |
      ⟨i, ok, t, t', w, rfl, ht, hmove, rfl⟩ | ⟨i, ch, channels, next, rfl, ht, hmem, rfl⟩ |
      ⟨rfl, rfl⟩ | ⟨v, t, rfl, rfl⟩ | ⟨v, t, rfl, rfl⟩
    · exact .inl rfl
    · exact hmove.sent
    · exact .inl rfl
    · exact .inl rfl
    · exact .inl rfl
    · exact .inl rfl
  rcases hsent with hsame | ⟨ev, hone⟩
  · refine ⟨hsame ▸ hq.1, fun e he hev c hc => ?_⟩
    rw [hsame] at he
    exact hold c (hq.2 e he hev c hc)
  · refine ⟨?_, fun e he hev c hc => ?_⟩
    · rw [hone, length_append]
      exact Nat.le_add_right_of_le hq.1
    · rw [hone, drop_append_of_le_length hq.1] at he
      rcases mem_append.mp he with he | he
      · exact hold c (hq.2 e he hev c hc)
      · obtain rfl := mem_singleton.mp he
        exact hold c (hb.targets h.consistent hev hc)

end HubState

section Runs

variable {home : Ulid → Ulid} {s s₁ s₂ : HubState} {i : ℕ} {ev : HubEvent}

/-- **Revoked stays revoked.** A user may not have a topic of a workspace, and
an event that says so is delivered, its questions to the database answered. Then
and ever after, until the user is permitted the topic again, no registered
connection of the user is subscribed to it, and of the events that are sent from
then on none goes to a connection of the user for that topic – whatever calls
run in between. -/
theorem revoked_stays_revoked {u w : Ulid} {topic : Topic} (hs : (hubSystem home).Reachable s)
    (hcall : s.tasks[i]? = some (Call.start (.deliverLocal ev)))
    (hchange : AccessChange.mk u w ∈ ev.accessChanges) (htopic : topic.InWorkspace home w)
    (hmay : s.world.may u topic = false)
    (hdeliver : (hubSystem home).Steps
      (fun _ a => HubState.NotGranted (fun v => v = u) topic a ∧ HubState.Answered i a) s s₁)
    (hdone : s₁.tasks[i]? = some .done)
    (hlater : (hubSystem home).Steps
      (fun _ a => HubState.NotGranted (fun v => v = u) topic a) s₁ s₂) :
    (∀ c, (s₂.world.hub.records c).registered = true → s₂.world.hub.userOf c = u →
      (s₂.world.hub.records c).subscribed topic = false) ∧
    (∀ c ∈ s₂.world.hub.subscribers topic, s₂.world.hub.userOf c ≠ u) ∧
    ∀ e ∈ s₂.world.sent.drop s₁.world.sent.length, e.1.OnlyFor u topic →
      ∀ c ∈ e.2, s₂.world.hub.userOf c ≠ u := by
  have hsteady := steady_of_reachable hs
  have hsteady₁ : s₁.Steady home :=
    hdeliver.preserves (fun _ _ _ h _ hstep => h.step hstep) hsteady
  have hbarred := barred_of_revoked hsteady hcall htopic
    (promises_deliverLocal hchange) hmay hdeliver hdone
  have hquiet : HubState.Quiet u topic s₁.world.sent.length s₁ := by
    refine ⟨le_rfl, fun e he => ?_⟩
    rw [drop_length] at he
    exact nomatch he
  have hinv : s₂.Steady home ∧ HubState.Barred (fun v => v = u) topic s₂
      ∧ HubState.Quiet u topic s₁.world.sent.length s₂ := by
    refine hlater.preserves (I := fun s => s.Steady home ∧ HubState.Barred (fun v => v = u) topic s
        ∧ HubState.Quiet u topic s₁.world.sent.length s)
      (fun s a s' hinv hgrant hstep => ?_) ⟨hsteady₁, hbarred, hquiet⟩
    obtain ⟨hsteady, hbarred, hquiet⟩ := hinv
    exact ⟨hsteady.step hstep, hbarred.step hsteady hgrant hstep, hquiet.step hsteady hbarred hstep⟩
  obtain ⟨hsteady₂, hbarred₂, hquiet₂⟩ := hinv
  refine ⟨hbarred₂.empty, fun c hmem huser => ?_, fun e he hev c hc => (hquiet₂.2 e he hev c hc).2⟩
  obtain ⟨hreg, hsub⟩ := (hsteady₂.consistent.subscribers topic c).mp hmem
  exact Bool.false_ne_true ((hbarred₂.empty c hreg huser).symm.trans hsub)

end Runs

/-- A connection of a user is in a room; the user is removed and the room asked
for again: the connection has lost the room and does not get it back. -/
theorem removed_member_loses_room :
    ∃ s : HubState, (s.world.hub.records 0).registered = true ∧ s.world.hub.userOf 0 = 1 ∧
      (s.world.hub.records 0).subscribed (.room 5) = false := by
  let ev : HubEvent := ⟨[⟨1, 5⟩], [], [], [], none, []⟩
  let deliver : List HubAction := [.advance 2 true, .advance 2 true, .advance 2 true,
    .advance 2 true, .release 2 (.room 5), .advance 2 true]
  have hrun : ((hubSystem id).run idleHub (registers 0 1 ++ subscribes 1 0 (.room 5)
      ++ [.withdraw 1 (.room 5), .call (.deliverLocal ev)])).any (fun s =>
      decide (s.tasks[2]? = some (Call.start (.deliverLocal ev))
        ∧ s.world.may 1 (.room 5) = false) &&
      ((hubSystem id).runBy (fun _ a => HubState.NotGranted (fun v => v = 1) (.room 5) a
        ∧ HubState.Answered 2 a) s deliver).any (fun s₁ =>
      decide (s₁.tasks[2]? = some .done) &&
      ((hubSystem id).runBy (fun _ a => HubState.NotGranted (fun v => v = 1) (.room 5) a) s₁
        [.call (.subscribe 0 (.room 5)), .advance 3 true, .advance 3 true]).any (fun s₂ =>
      decide ((s₂.world.hub.records 0).registered = true ∧ s₂.world.hub.userOf 0 = 1)))) = true := by
    decide +kernel
  obtain ⟨s, hreach, htest⟩ := exists_of_run hrun (init_idleHub id)
  obtain ⟨hstart, hrest⟩ := Bool.and_eq_true_iff.mp htest
  obtain ⟨s₁, hs₁, htest₁⟩ := (Option.any_eq_true _ _).mp hrest
  obtain ⟨hdone, hrest₁⟩ := Bool.and_eq_true_iff.mp htest₁
  obtain ⟨s₂, hs₂, htest₂⟩ := (Option.any_eq_true _ _).mp hrest₁
  obtain ⟨hcall, hmay⟩ := of_decide_eq_true hstart
  obtain ⟨hreg, huser⟩ := of_decide_eq_true htest₂
  have hchange : AccessChange.mk 1 5 ∈ ev.accessChanges := .head _
  have htopic : (Topic.room 5).InWorkspace id 5 := rfl
  have hrevoked := revoked_stays_revoked hreach hcall hchange htopic hmay
    (steps_of_runBy hs₁) (of_decide_eq_true hdone)
    (steps_of_runBy hs₂)
  exact ⟨s₂, hreg, huser, hrevoked.1 0 hreg huser⟩

/-! ## Deleted rooms -/

namespace HubTask

/-- A call will still take a room from every connection. -/
def WillClose (r : Ulid) : HubTask → Prop
  | .deliver ev => r ∈ ev.closedRooms
  | .closeRooms roomIds => r ∈ roomIds
  | .revalidate _ _ next => next.WillClose r
  | .allowedRooms _ _ _ next => next.WillClose r
  | .allowedWorkspaces _ _ _ _ next => next.WillClose r
  | .removeDisallowed _ _ _ _ _ next => next.WillClose r
  | .release _ next => next.WillClose r
  | _ => False

/-- Whether a call is about to take rooms from every connection. -/
def closes : HubTask → Bool
  | .closeRooms _ => true
  | _ => false

theorem willClose_releasing {r : Ulid} {channels : Multiset Channel} {next : HubTask}
    (h : next.WillClose r) : (releasing channels next).WillClose r := by
  unfold releasing
  split
  · exact h
  · exact h

theorem willClose_deliverLocal {r : Ulid} {ev : HubEvent} (h : r ∈ ev.closedRooms) :
    (Call.start (.deliverLocal ev)).WillClose r := by
  show (Call.deliverLocalTask ev).WillClose r
  unfold Call.deliverLocalTask
  induction ev.accessChanges with
  | nil => exact h
  | cons _ _ ih => exact ih

instance decidableVoid (h : Hub) (p : Ulid → Prop) [DecidablePred p] (topic : Topic) :
    (t : HubTask) → Decidable (t.Void h p topic)
  | .acquire c t' epoch _ => inferInstanceAs (Decidable (t' = topic → p (h.userOf c) →
      (h.records c).registered = true → epoch < h.epochs (h.userOf c)))
  | .enter c t' epoch _ => inferInstanceAs (Decidable (t' = topic → p (h.userOf c) →
      (h.records c).registered = true → epoch < h.epochs (h.userOf c)))
  | .release _ next => decidableVoid h p topic next
  | .revalidate _ _ next => decidableVoid h p topic next
  | .allowedRooms _ _ _ next => decidableVoid h p topic next
  | .allowedWorkspaces _ _ _ _ next => decidableVoid h p topic next
  | .removeDisallowed _ _ _ _ _ next => decidableVoid h p topic next
  | .registerStart _ => isTrue trivial
  | .registerAcquire _ => isTrue trivial
  | .registerEnter _ => isTrue trivial
  | .subscribe _ _ => isTrue trivial
  | .authorize _ _ _ => isTrue trivial
  | .unsubscribe _ _ => isTrue trivial
  | .unregister _ => isTrue trivial
  | .unregistered => isTrue trivial
  | .deliver _ => isTrue trivial
  | .closeRooms _ => isTrue trivial
  | .done => isTrue trivial

end HubTask

namespace HubState

variable {home : Ulid → Ulid} {s s' : HubState} {a : HubAction} {r : Ulid} {i : ℕ}

/-- When the call at `i` takes a room from every connection, no call brings an
old answer for the room. -/
def ClosesInTime (i : ℕ) (r : Ulid) (s : HubState) : HubAction → Prop
  | .advance j _ => j = i → s.tasks[i]?.any HubTask.closes = true →
    ∀ t ∈ s.tasks, t.Void s.world.hub (fun _ => True) (.room r)
  | _ => True

instance (i : ℕ) (r : Ulid) (s : HubState) (a : HubAction) : Decidable (ClosesInTime i r s a) :=
  match a with
  | .advance j _ =>
    inferInstanceAs (Decidable (j = i → s.tasks[i]?.any HubTask.closes = true → ∀ t ∈ s.tasks, _))
  | .call _ | .release _ _ | .shutdown | .grant _ _ | .withdraw _ _ => isTrue trivial

/-- **Where the closing of a room is**: ahead of the call that does it, or
behind it, and the room is barred to everybody. -/
def Closing (r : Ulid) (i : ℕ) (s : HubState) : Prop :=
  ∃ t, s.tasks[i]? = some t ∧ (∀ u, s.world.may u (.room r) = false) ∧
    (t.WillClose r ∨ Barred (fun _ => True) (.room r) s)

variable {ok : Bool} {w' : World} {t t' : HubTask}

/-- **Closing a room empties it.** The call that closes a room goes on towards
it, or bars the room. -/
theorem closing_advance (h : s.Steady home) (hmove : Moves home ok s.world t w' t')
    (hmay : ∀ u, s.world.may u (.room r) = false) (hclose : t.WillClose r)
    (hvoid' : t.closes = true → ∀ v ∈ s.tasks.set i t', v.Void w'.hub (fun _ => True) (.room r)) :
    t'.WillClose r ∨ Barred (fun _ => True) (.room r) ⟨w', s.tasks.set i t'⟩ := by
  cases hmove with
  | ends hreturn => cases t <;> first | exact False.elim hclose | exact False.elim hreturn
  | removeDisallowed =>
    exact .inl (willClose_releasing hclose)
  | deliver ev hclosed =>
    have hmem : r ∈ ev.closedRooms := hclose
    rw [hclosed] at hmem
    cases hmem
  | nobody userId scope next hnone | nothing userId scope next hrooms hworkspaces
  | revalidate userId scope next | allowedRooms userId rooms workspaces next
  | allowedRoomsFailed userId rooms workspaces next hfail
  | allowedWorkspaces userId rooms workspaces allowed next
  | allowedWorkspacesFailed | deliverClosed =>
    exact .inl hclose
  | closeRooms =>
    refine .inr ⟨fun u _ => hmay u, fun c hreg _ => ?_, hvoid' rfl⟩
    by_contra hsub
    obtain ⟨hsub', hnot⟩ :=
      (Hub.subscribed_drop s.world.hub _ _ c _).mp (of_not_eq_false hsub)
    have hreg' := (Hub.registered_drop s.world.hub _ _ c).symm.trans hreg
    have hmem : c ∈ s.world.hub.roomSubs.at_ r :=
      (h.consistent.subscribers (.room r) c).mpr ⟨hreg', hsub'⟩
    exact hnot ⟨Finset.mem_biUnion.mpr ⟨r, mem_toFinset.mpr hclose, hmem⟩,
      and_eq_true_iff.mpr ⟨decide_eq_true hclose, decide_eq_true hmem⟩⟩
  | _ => exact False.elim hclose

/-- **The closing step lemma**: whatever step is taken, the closing stays where
it is or goes on. -/
theorem Closing.step (hr : Closing r i s) (h : s.Steady home)
    (hgrant : NotGranted (fun _ => True) (.room r) a) (htime : ClosesInTime i r s a)
    (hs : s.step home a = some s') : Closing r i s' := by
  obtain ⟨t, ht, hmay, hwhere⟩ := hr
  have hmay' : ∀ u, s'.world.may u (.room r) = false := fun u =>
    may_step hgrant hs trivial (hmay u)
  have hstays : s'.tasks[i]? = some t → Closing r i s' := by
    refine fun ht' => ⟨t, ht', hmay', ?_⟩
    rcases hwhere with hclose | hbarred
    · exact .inl hclose
    · exact .inr (hbarred.step h hgrant hs)
  rcases step_cases hs with ⟨call, rfl, -, rfl⟩ | ⟨j, ok, v, v', w', rfl, hv, hmove, rfl⟩ |
    ⟨j, ch, channels, next, rfl, hv, hmem, rfl⟩ | ⟨rfl, rfl⟩ | ⟨v, t, rfl, rfl⟩ | ⟨v, t, rfl, rfl⟩
  · exact hstays (getElem?_append_one ht _)
  · by_cases hj : j = i
    · subst hj
      obtain rfl : t = v := Option.some.inj (ht.symm.trans hv)
      refine ⟨v', (getElem?_set hv v' j).trans (if_pos rfl), hmay', ?_⟩
      rcases hwhere with hclose | hbarred
      · refine closing_advance h hmove hmay hclose fun hcloses => ?_
        have hany : s.tasks[j]?.any HubTask.closes = true := by
          rw [ht]
          exact hcloses
        exact void_step h (fun u _ => hmay u) (htime rfl hany) hs
      · exact .inr (hbarred.step h hgrant hs)
    · exact hstays ((getElem?_set hv v' i).trans ((if_neg hj).trans ht))
  · by_cases hj : j = i
    · subst hj
      obtain rfl : t = .release channels next := Option.some.inj (ht.symm.trans hv)
      refine ⟨releasing (channels.erase ch) next,
        (getElem?_set hv _ j).trans (if_pos rfl), hmay', ?_⟩
      rcases hwhere with hclose | hbarred
      · have hnext : next.WillClose r := hclose
        exact .inl (willClose_releasing hnext)
      · exact .inr (hbarred.step h hgrant hs)
    · exact hstays ((getElem?_set hv _ i).trans ((if_neg hj).trans ht))
  · exact hstays ht
  · exact hstays ht
  · exact hstays ht

end HubState

section Runs

variable {home : Ulid → Ulid} {s s₁ s₂ : HubState} {i : ℕ} {ev : HubEvent}

/-- **A closed room stays empty.** A room is deleted, so that nobody may have
it, and the event that says so is delivered. If at the moment the room is taken
from every connection no subscription to it is on its way with an answer from
before, then from the end of the delivery on no registered connection is
subscribed to the room, and the room has no subscribers. -/
theorem closed_room_stays_empty {r : Ulid} (hs : (hubSystem home).Reachable s)
    (hcall : s.tasks[i]? = some (Call.start (.deliverLocal ev))) (hr : r ∈ ev.closedRooms)
    (hmay : ∀ u, s.world.may u (.room r) = false)
    (hdeliver : (hubSystem home).Steps (fun s a =>
      HubState.NotGranted (fun _ => True) (.room r) a ∧ HubState.ClosesInTime i r s a) s s₁)
    (hdone : s₁.tasks[i]? = some .done)
    (hlater : (hubSystem home).Steps
      (fun _ a => HubState.NotGranted (fun _ => True) (.room r) a) s₁ s₂) :
    (∀ c, (s₂.world.hub.records c).registered = true →
      (s₂.world.hub.records c).subscribed (.room r) = false) ∧
    s₂.world.hub.subscribers (.room r) = ∅ := by
  have hsteady := steady_of_reachable hs
  have hclosing : s₁.Steady home ∧ HubState.Closing r i s₁ := by
    refine hdeliver.preserves (I := fun s => s.Steady home ∧ HubState.Closing r i s)
      (fun s a s' hinv hP hstep => ?_)
      ⟨hsteady, _, hcall, hmay, .inl (willClose_deliverLocal hr)⟩
    exact ⟨hinv.1.step hstep, hinv.2.step hinv.1 hP.1 hP.2 hstep⟩
  obtain ⟨hsteady₁, t, ht, -, hwhere⟩ := hclosing
  obtain rfl : t = .done := Option.some.inj (ht.symm.trans hdone)
  have hbarred : HubState.Barred (fun _ => True) (.room r) s₁ := hwhere.resolve_left id
  have hinv : s₂.Steady home ∧ HubState.Barred (fun _ => True) (.room r) s₂ := by
    refine hlater.preserves
      (I := fun s => s.Steady home ∧ HubState.Barred (fun _ => True) (.room r) s)
      (fun s a s' hinv hgrant hstep => ?_) ⟨hsteady₁, hbarred⟩
    exact ⟨hinv.1.step hstep, hinv.2.step hinv.1 hgrant hstep⟩
  refine ⟨fun c hreg => hinv.2.empty c hreg trivial, Finset.eq_empty_of_forall_notMem ?_⟩
  intro c hmem
  obtain ⟨hreg, hsub⟩ := (hinv.1.consistent.subscribers (.room r) c).mp hmem
  exact Bool.false_ne_true ((hinv.2.empty c hreg trivial).symm.trans hsub)

end Runs

/-! ## A room with one member -/

/-- An instance that nothing has happened to, with permissions for one user. -/
def memberHub : HubState := ⟨⟨Hub.empty, 0, 0, fun userId _ => decide (userId = 1), []⟩, []⟩

/-- The deletion of a room. -/
def roomDeleted : HubEvent := ⟨[], [5], [], [], none, [5]⟩

theorem nobody_may {s : HubState} (hs : (hubSystem id).Steps
    (fun _ a => HubState.NotGranted (fun _ => True) (.room 5) a) memberHub s)
    (hone : s.world.may 1 (.room 5) = false) (u : Ulid) : s.world.may u (.room 5) = false := by
  by_cases hu : u = 1
  · rw [hu]
    exact hone
  · refine hs.preserves (I := fun s => s.world.may u (.room 5) = false)
      (fun _ _ _ hmay hgrant hstep => may_step hgrant hstep trivial hmay) ?_
    exact decide_eq_false hu

/-- The member is in the room when it is deleted: the room has nobody
afterwards. -/
theorem deleted_room_is_empty : ∃ s : HubState, (s.world.hub.records 0).registered = true ∧
      s.world.hub.subscribers (.room 5) = ∅ := by
  have hrun : ((hubSystem id).runBy
      (fun _ a => HubState.NotGranted (fun _ => True) (.room 5) a) memberHub
      (registers 0 1 ++ subscribes 1 0 (.room 5)
        ++ [.withdraw 1 (.room 5), .call (.deliverLocal roomDeleted)])).any (fun s =>
      decide (s.tasks[2]? = some (Call.start (.deliverLocal roomDeleted))
        ∧ s.world.may 1 (.room 5) = false) &&
      ((hubSystem id).runBy (fun s a => HubState.NotGranted (fun _ => True) (.room 5) a
        ∧ HubState.ClosesInTime 2 5 s a) s
        [.advance 2 true, .advance 2 true, .release 2 (.room 5)]).any (fun s₁ =>
      decide (s₁.tasks[2]? = some .done ∧ (s₁.world.hub.records 0).registered = true))) = true := by
    decide +kernel
  obtain ⟨s, hs, htest⟩ := (Option.any_eq_true _ _).mp hrun
  obtain ⟨hstart, hrest⟩ := Bool.and_eq_true_iff.mp htest
  obtain ⟨s₁, hs₁, htest₁⟩ := (Option.any_eq_true _ _).mp hrest
  obtain ⟨hcall, hone⟩ := of_decide_eq_true hstart
  obtain ⟨hdone, hreg⟩ := of_decide_eq_true htest₁
  have hsteps := steps_of_runBy hs
  have hreach : (hubSystem id).Reachable s :=
    ⟨memberHub, ⟨rfl, rfl, rfl, rfl⟩, hsteps.mono fun _ _ _ => trivial⟩
  have hempty := closed_room_stays_empty hreach hcall (.head _)
    (nobody_may hsteps hone) (steps_of_runBy hs₁) hdone
    .refl
  exact ⟨s₁, hreg, hempty.2⟩

/-- **A deleted room gets a subscriber.** The member asks for the room and is
authorised; the room is deleted and its deletion delivered to the end; then the
subscription is entered. No call is left, and the connection is in the room. -/
theorem subscribed_after_close : ∃ s s₁ s₂ : HubState, (hubSystem id).Reachable s ∧
      s.tasks[2]? = some (Call.start (.deliverLocal roomDeleted)) ∧
      5 ∈ roomDeleted.closedRooms ∧ (∀ u, s.world.may u (.room 5) = false) ∧
      (hubSystem id).Steps (fun _ a => HubState.NotGranted (fun _ => True) (.room 5) a) s s₁ ∧
      s₁.tasks[2]? = some .done ∧
      (hubSystem id).Steps (fun _ a => HubState.NotGranted (fun _ => True) (.room 5) a) s₁ s₂ ∧
      (∀ t ∈ s₂.tasks, t = .done) ∧ (s₂.world.hub.records 0).registered = true ∧
      (s₂.world.hub.records 0).subscribed (.room 5) = true := by
  have hrun : ((hubSystem id).runBy
      (fun _ a => HubState.NotGranted (fun _ => True) (.room 5) a) memberHub
      (registers 0 1 ++ [.call (.subscribe 0 (.room 5)), .advance 1 true, .advance 1 true,
        .withdraw 1 (.room 5), .call (.deliverLocal roomDeleted)])).any (fun s =>
      decide (s.tasks[2]? = some (Call.start (.deliverLocal roomDeleted))
        ∧ s.world.may 1 (.room 5) = false) &&
      ((hubSystem id).runBy (fun _ a => HubState.NotGranted (fun _ => True) (.room 5) a) s
        [.advance 2 true, .advance 2 true]).any (fun s₁ =>
      decide (s₁.tasks[2]? = some .done) &&
      ((hubSystem id).runBy (fun _ a => HubState.NotGranted (fun _ => True) (.room 5) a) s₁
        [.advance 1 true, .advance 1 true]).any (fun s₂ =>
      decide ((∀ t ∈ s₂.tasks, t = .done) ∧ (s₂.world.hub.records 0).registered = true
        ∧ (s₂.world.hub.records 0).subscribed (.room 5) = true)))) = true := by
    decide +kernel
  obtain ⟨s, hs, htest⟩ := (Option.any_eq_true _ _).mp hrun
  obtain ⟨hstart, hrest⟩ := Bool.and_eq_true_iff.mp htest
  obtain ⟨s₁, hs₁, htest₁⟩ := (Option.any_eq_true _ _).mp hrest
  obtain ⟨hdone, hrest₁⟩ := Bool.and_eq_true_iff.mp htest₁
  obtain ⟨s₂, hs₂, htest₂⟩ := (Option.any_eq_true _ _).mp hrest₁
  obtain ⟨hcall, hone⟩ := of_decide_eq_true hstart
  have hsteps := steps_of_runBy hs
  have hreach : (hubSystem id).Reachable s :=
    ⟨memberHub, ⟨rfl, rfl, rfl, rfl⟩, hsteps.mono fun _ _ _ => trivial⟩
  exact ⟨s, s₁, s₂, hreach, hcall, .head _, nobody_may hsteps hone,
    steps_of_runBy hs₁, of_decide_eq_true hdone,
    steps_of_runBy hs₂, of_decide_eq_true htest₂⟩

end Hibari
