import Hibari.ActivityFeed

/-!
# The timer of timed mutes

A mute may end by itself, and no event says so: the store arms one timer for the earliest end among
its rooms, and the callback turns the mutes that have ended off and arms the next one. `setTimeout`
takes a delay above `2 ^ 31 - 1` milliseconds for none, and a callback runs when the browser gets to
it.

**A mute ends on time and the timer never spins** (`mutes_end_on_time`) in runs where, each time the
timer is set, the ends of all stored mutes are still ahead and the earliest of them is no further
than the longest delay. Otherwise a far end makes the callback run over and over, and an end that
has passed is passed over.
-/

namespace Hibari

open List Option

/-- The longest delay that `setTimeout` keeps, in milliseconds. -/
def maxDelay : ℕ := 2 ^ 31 - 1

/-- A timer of the browser: when it was armed, and for how long. A negative delay is none. -/
structure BrowserTimer where
  id : ℕ
  armed : ℕ
  delay : ℕ
  deriving DecidableEq

/-- The earliest moment at which the callback runs. -/
def BrowserTimer.due (timer : BrowserTimer) : ℕ :=
  timer.armed + if timer.delay ≤ maxDelay then timer.delay else 0

/-- When the mute of a room ends by itself. -/
def muteEnd (n : RoomNotifications) : Option ℕ := if n.muted then n.mutedUntil else none

/-- The ends of the mutes of some rooms. -/
def muteEnds (rooms : List (Ulid × Option RoomNotifications)) : List ℕ :=
  rooms.filterMap fun room => room.2.bind muteEnd

/-- The earliest end of a mute that is still ahead. -/
def nextMuteExpiry (rooms : List (Ulid × Option RoomNotifications)) (now : ℕ) : Option ℕ :=
  (muteEnds rooms).foldl (fun next at_ =>
    if now < at_ && next.all (at_ < ·) then some at_ else next) none

/-- Turn a mute off that has ended. -/
def endMute (n : RoomNotifications) (now : ℕ) : RoomNotifications :=
  if n.muted && !isMuted n now then { n with muted := false, mutedUntil := none } else n

/-- **The rooms of the store and their timer**: the target and the timer of `muteTimer`, the timers
that the browser has, and whether the callback still has to set the timer at its end. -/
structure MuteClock where
  rooms : List (Ulid × Option RoomNotifications)
  muteTimer : Option (ℕ × ℕ)
  timers : List BrowserTimer
  timersArmed : ℕ
  now : ℕ
  calling : Bool
  deriving DecidableEq

/-- What happens: time passes, the rooms change, a callback runs up to its last call, and ends. Each
reading of the clock is part of the action. -/
inductive MuteAction
  | wait (now : ℕ)
  | update (rooms : List (Ulid × Option RoomNotifications)) (t₁ t₂ : ℕ)
  | fire (timer : BrowserTimer) (t t₁ t₂ : ℕ)
  | finish (t₁ t₂ : ℕ)

namespace MuteClock

variable (s : MuteClock)

/-- Set the timer to the earliest end, unless it is set to that. -/
def scheduleMuteExpiry (t₁ t₂ : ℕ) : MuteClock :=
  let at_ := nextMuteExpiry s.rooms t₁
  if s.muteTimer.map (·.1) = at_ then { s with now := t₂ }
  else
    let timers := s.timers.filter fun timer => s.muteTimer.all (·.2 ≠ timer.id)
    match at_ with
    | none => { s with timers, muteTimer := none, now := t₂ }
    | some at_ => { s with
        timers := timers ++ [⟨s.timersArmed, t₂, at_ - t₂⟩]
        muteTimer := some (at_, s.timersArmed)
        timersArmed := s.timersArmed + 1
        now := t₂ }

/-- The rooms after the mutes that have ended are turned off. -/
def endMutes (now : ℕ) : List (Ulid × Option RoomNotifications) :=
  s.rooms.map fun room => (room.1, room.2.map (endMute · now))

/-- The callback up to its last call. -/
def fire (timer : BrowserTimer) (t t₁ t₂ : ℕ) : MuteClock :=
  let fired := { s with timers := s.timers.erase timer, muteTimer := none, calling := true }
  if s.endMutes t = s.rooms then { fired with now := t }
  else { fired with rooms := s.endMutes t }.scheduleMuteExpiry t₁ t₂

def step : MuteAction → Option MuteClock
  | .wait now => if s.now ≤ now then some { s with now } else none
  | .update rooms t₁ t₂ =>
    if s.now ≤ t₁ ∧ t₁ ≤ t₂ then some ({ s with rooms }.scheduleMuteExpiry t₁ t₂) else none
  | .fire timer t t₁ t₂ =>
    if s.calling = false ∧ timer ∈ s.timers ∧ timer.due ≤ t ∧ s.now ≤ t ∧ t ≤ t₁ ∧ t₁ ≤ t₂ then
      some (s.fire timer t t₁ t₂)
    else none
  | .finish t₁ t₂ =>
    if s.calling ∧ s.now ≤ t₁ ∧ t₁ ≤ t₂ then
      some { s.scheduleMuteExpiry t₁ t₂ with calling := false }
    else none

/-- The timer can be set: all ends are ahead, and the earliest is near enough. -/
def Near (rooms : List (Ulid × Option RoomNotifications)) (t₁ t₂ : ℕ) : Prop :=
  (∀ at_ ∈ muteEnds rooms, t₁ < at_) ∧
    (muteEnds rooms ≠ [] → ∃ at_ ∈ muteEnds rooms, at_ - t₂ ≤ maxDelay)

/-- **A step that sets the timer where it can be set.** -/
def Heeds (s : MuteClock) : MuteAction → Prop
  | .wait _ => True
  | .update rooms t₁ t₂ => Near rooms t₁ t₂
  | .fire _ t t₁ t₂ => s.endMutes t ≠ s.rooms → Near (s.endMutes t) t₁ t₂
  | .finish t₁ t₂ => Near s.rooms t₁ t₂

instance (rooms : List (Ulid × Option RoomNotifications)) (t₁ t₂ : ℕ) :
    Decidable (Near rooms t₁ t₂) :=
  inferInstanceAs (Decidable (_ ∧ _))

instance : DecidablePred s.Heeds
  | .wait _ => inferInstanceAs (Decidable True)
  | .update .. => inferInstanceAs (Decidable (Near ..))
  | .fire _ t t₁ t₂ => inferInstanceAs (Decidable (s.endMutes t ≠ s.rooms → Near _ t₁ t₂))
  | .finish .. => inferInstanceAs (Decidable (Near ..))

/-- **Mutes end on time**: one timer at most, which runs no earlier than its delay; and where no
callback is due or under way, every stored mute has its end ahead and the timer is set to the
earliest. -/
structure Sound : Prop where
  single : s.timers.length ≤ 1
  patient : ∀ timer ∈ s.timers, timer.armed + timer.delay ≤ timer.due
  ahead : s.calling = false → (∀ timer ∈ s.timers, s.now < timer.due) →
    ∀ at_ ∈ muteEnds s.rooms, s.now < at_
  target : s.calling = false → (∀ timer ∈ s.timers, s.now < timer.due) →
    s.muteTimer.map (·.1) = (muteEnds s.rooms).min?

end MuteClock

/-- The runs of a store from its start. -/
def muteClock : TransitionSystem MuteClock MuteAction where
  init s := ∃ now, s = ⟨[], none, [], 0, now, false⟩
  step := MuteClock.step

namespace MuteClock

variable {s s' : MuteClock} {t₁ t₂ : ℕ} {rooms : List (Ulid × Option RoomNotifications)}

/-- With all ends ahead, the next one is the least. -/
theorem nextMuteExpiry_eq (h : ∀ at_ ∈ muteEnds rooms, t₁ < at_) :
    nextMuteExpiry rooms t₁ = (muteEnds rooms).min? := by
  have hfold : ∀ (l : List ℕ) (m : ℕ), (∀ at_ ∈ l, t₁ < at_) →
      l.foldl (fun next at_ => if t₁ < at_ && next.all (at_ < ·) then some at_ else next) (some m) =
        some (l.foldl min m) := by
    intro l
    induction l with
    | nil => exact fun m _ => rfl
    | cons a l ih =>
      intro m hl
      have hmin : (if t₁ < a && (some m).all (a < ·) then some a else some m) = some (min m a) := by
        rw [decide_eq_true (hl a (.head _)), Bool.true_and, all_some]
        obtain hlt | hle := lt_or_ge a m
        · rw [if_pos (decide_eq_true hlt), min_eq_right hlt.le]
        · rw [if_neg (by rw [decide_eq_true_eq]; exact not_lt.mpr hle), min_eq_left hle]
      rw [foldl_cons, foldl_cons, hmin]
      exact ih _ fun at_ hat => hl at_ (.tail _ hat)
  unfold nextMuteExpiry
  cases hends : muteEnds rooms with
  | nil => rfl
  | cons a l =>
    rw [hends] at h
    rw [foldl_cons, all_none, Bool.and_true, if_pos (decide_eq_true (h a (.head _)))]
    exact hfold l a fun at_ hat => h at_ (.tail _ hat)

/-- **What every step keeps**: the timers are that of the target, armed for the time up to it; and
the target is the least end, unless the callback has still to set it. -/
structure Kept (s : MuteClock) : Prop where
  idle : s.muteTimer = none → s.timers = []
  armed : ∀ at_ id, s.muteTimer = some (at_, id) →
    ∃ a ≤ s.now, s.timers = [⟨id, a, at_ - a⟩] ∧ at_ - a ≤ maxDelay
  target : s.calling = false → s.muteTimer.map (·.1) = (muteEnds s.rooms).min?

/-- Setting the timer where it can be set. -/
theorem Kept.schedule (hnone : s.muteTimer = none → s.timers = [])
    (harmed : ∀ at_ id, s.muteTimer = some (at_, id) →
      ∃ a ≤ s.now, s.timers = [⟨id, a, at_ - a⟩] ∧ at_ - a ≤ maxDelay)
    (hnow : s.now ≤ t₂) (hnear : Near s.rooms t₁ t₂) :
    (s.scheduleMuteExpiry t₁ t₂).Kept ∧ (s.scheduleMuteExpiry t₁ t₂).rooms = s.rooms ∧
      (s.scheduleMuteExpiry t₁ t₂).muteTimer.map (·.1) = (muteEnds s.rooms).min? := by
  have hleast := nextMuteExpiry_eq hnear.1
  unfold scheduleMuteExpiry
  rw [hleast]
  dsimp only
  have hcleared : s.timers.filter (fun timer => s.muteTimer.all (·.2 ≠ timer.id)) = [] := by
    cases htimer : s.muteTimer with
    | none => rw [hnone htimer]; rfl
    | some target =>
      obtain ⟨a, -, htimers, -⟩ := harmed target.1 target.2 htimer
      rw [htimers]
      exact filter_eq_nil_iff.mpr fun timer hmem => by cases mem_singleton.mp hmem; simp
  split
  · next heq =>
    refine ⟨⟨hnone, fun at_ id htimer => ?_, fun _ => heq⟩, rfl, heq⟩
    obtain ⟨a, ha, hrest⟩ := harmed at_ id htimer
    exact ⟨a, ha.trans hnow, hrest⟩
  · rw [hcleared]
    cases hmin : (muteEnds s.rooms).min? with
    | none => exact ⟨⟨fun _ => rfl, nofun, fun _ => hmin.symm⟩, rfl, rfl⟩
    | some at_ =>
      refine ⟨⟨nofun, fun _ _ htimer => ?_, fun _ => hmin.symm⟩, rfl, rfl⟩
      cases htimer
      obtain ⟨u, hu, hfar⟩ := hnear.2 fun hnil => by rw [hnil] at hmin; cases hmin
      have hle : at_ ≤ u := (min?_eq_some_iff.mp hmin).2 u hu
      exact ⟨t₂, le_rfl, rfl, (Nat.sub_le_sub_right hle t₂).trans hfar⟩

/-- A timer that fires was the only one. -/
theorem Kept.erase {timer : BrowserTimer} (h : s.Kept) (hmem : timer ∈ s.timers) :
    s.timers.erase timer = [] := by
  cases htimer : s.muteTimer with
  | none => rw [h.idle htimer] at hmem; cases hmem
  | some target =>
    obtain ⟨a, -, htimers, -⟩ := h.armed target.1 target.2 htimer
    rw [htimers] at hmem ⊢
    cases mem_singleton.mp hmem
    exact erase_cons_head ..

theorem kept_step {a : MuteAction} (h : s.Kept) (hheeds : s.Heeds a) (hs : s.step a = some s') :
    s'.Kept := by
  cases a with
  | wait now =>
    obtain ⟨hnow, hs⟩ := ite_none_right_eq_some.mp hs
    cases hs
    refine ⟨h.idle, fun at_ id htimer => ?_, h.target⟩
    obtain ⟨a, ha, hrest⟩ := h.armed at_ id htimer
    exact ⟨a, ha.trans hnow, hrest⟩
  | update rooms t₁ t₂ =>
    obtain ⟨⟨h₁, h₂⟩, hs⟩ := ite_none_right_eq_some.mp hs
    cases hs
    exact (Kept.schedule (s := { s with rooms }) h.idle h.armed (h₁.trans h₂) hheeds).1
  | fire timer t t₁ t₂ =>
    obtain ⟨⟨-, hmem, -, hnow, ht, h₁₂⟩, hs⟩ := ite_none_right_eq_some.mp hs
    cases hs
    unfold MuteClock.fire
    dsimp only
    split
    · exact ⟨fun _ => h.erase hmem, nofun, nofun⟩
    · next hchanged =>
      exact (Kept.schedule (s := { s with
        rooms := s.endMutes t, timers := s.timers.erase timer, muteTimer := none, calling := true })
        (fun _ => h.erase hmem) nofun ((hnow.trans ht).trans h₁₂) (hheeds hchanged)).1
  | finish t₁ t₂ =>
    obtain ⟨⟨-, h₁, h₂⟩, hs⟩ := ite_none_right_eq_some.mp hs
    cases hs
    obtain ⟨hkept, hrooms, htarget⟩ := Kept.schedule h.idle h.armed (h₁.trans h₂) hheeds
    exact ⟨hkept.idle, hkept.armed, fun _ => htarget.trans (hrooms ▸ rfl)⟩

theorem Kept.sound (h : s.Kept) : s.Sound := by
  cases htimer : s.muteTimer with
  | none =>
    have htimers := h.idle htimer
    have hends (hcalling : s.calling = false) : muteEnds s.rooms = [] :=
      min?_eq_none_iff.mp ((h.target hcalling).symm.trans (by rw [htimer]; rfl))
    refine ⟨by rw [htimers]; exact Nat.zero_le _, by rw [htimers]; exact nofun, ?_,
      fun hcalling _ => htimer ▸ h.target hcalling⟩
    intro hcalling _ at_ hat
    rw [hends hcalling] at hat
    cases hat | some target =>
    obtain ⟨a, ha, htimers, hdelay⟩ := h.armed target.1 target.2 htimer
    have hdue : (⟨target.2, a, target.1 - a⟩ : BrowserTimer).due = a + (target.1 - a) := by
      rw [BrowserTimer.due, if_pos hdelay]
    refine ⟨by rw [htimers]; exact le_rfl, ?_, fun hcalling hwaits at_ hat => ?_,
      fun hcalling _ => htimer ▸ h.target hcalling⟩
    · rw [htimers]
      exact forall_mem_singleton.mpr hdue.ge
    · have hleast : target.1 ≤ at_ := by
        have hmin := h.target hcalling
        rw [htimer] at hmin
        exact (min?_eq_some_iff.mp hmin.symm).2 at_ hat
      have hlt := hwaits ⟨target.2, a, target.1 - a⟩ (by rw [htimers]; exact .head _)
      rw [hdue] at hlt
      omega

end MuteClock

/-- **A timed mute ends on time and the timer never spins** in runs that set the timer only where
all ends are ahead and the earliest is near enough; a callback then runs no earlier than its delay.
-/
theorem mutes_end_on_time {s : MuteClock} (h : muteClock.ReachableBy MuteClock.Heeds s) :
    s.Sound ∧ ∀ timer t t₁ t₂ s', s.step (.fire timer t t₁ t₂) = some s' →
      timer.armed + timer.delay ≤ t := by
  have hstart : ∀ s, muteClock.init s → s.Kept := by
    rintro _ ⟨now, rfl⟩
    exact ⟨fun _ => rfl, nofun, fun _ => rfl⟩
  have hsound := (h.invariant hstart fun _ _ _ => MuteClock.kept_step).sound
  refine ⟨hsound, fun timer t t₁ t₂ s' hs => ?_⟩
  obtain ⟨⟨-, hmem, hdue, -⟩, -⟩ := ite_none_right_eq_some.mp hs
  exact (hsound.patient timer hmem).trans hdue

/-- A mute for an hour is turned off after the hour. -/
theorem mutes_end_on_time_hour : ∃ s, muteClock.ReachableBy MuteClock.Heeds s ∧ s.Sound ∧
    s.rooms = [(1, some ⟨none, false, none⟩)] := by
  have hrun : (muteClock.runBy MuteClock.Heeds ⟨[], none, [], 0, 0, false⟩
      [.update [(1, some ⟨none, true, some 3600000⟩)] 0 0,
        .fire ⟨0, 0, 3600000⟩ 3600000 3600000 3600000, .finish 3600000 3600000]).any
        (fun s => s.rooms = [(1, some ⟨none, false, none⟩)]) = true := by decide
  obtain ⟨s, hs, hoff⟩ := TransitionSystem.exists_of_runBy hrun ⟨_, rfl⟩
  exact ⟨s, hs, (mutes_end_on_time hs).1, of_decide_eq_true hoff⟩

/-- A mute until the 25th day: the callback runs at once, and turns nothing off. -/
theorem far_mute_spins : ¬ ∀ s timer t t₁ t₂ s', muteClock.Reachable s →
    s.step (.fire timer t t₁ t₂) = some s' →
      s'.rooms ≠ s.rooms ∨ timer.armed + timer.delay ≤ t := by
  intro h
  let timer : BrowserTimer := ⟨0, 0, maxDelay + 1⟩
  have hrun : (muteClock.run ⟨[], none, [], 0, 0, false⟩
      [.update [(1, some ⟨none, true, some (maxDelay + 1)⟩)] 0 0]).any (fun s =>
        (s.step (.fire timer 0 0 0)).any fun s' => s'.rooms = s.rooms) = true := by decide
  obtain ⟨s, hs, hfire⟩ := TransitionSystem.exists_of_run hrun ⟨_, rfl⟩
  obtain ⟨s', hs', hrooms⟩ := (any_eq_true _ _).mp hfire
  obtain hne | hle := h s timer 0 0 0 s' hs hs'
  · exact hne (of_decide_eq_true hrooms)
  · exact absurd hle (by decide)

end Hibari
