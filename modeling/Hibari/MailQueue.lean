import Hibari.TransitionSystem

/-!
# The queue of mails

Mails are put into a queue and sent one after the other by `Run`, each tried again after a failure
that may pass. When the server stops, what is in the queue is sent while there is time. **No mail that
was taken in is lost or sent twice** (`mails_kept`): the mails end in the order in which they were
taken in, and one is given up only for a reason.
-/

namespace Hibari

open List

/-- The options that decide what the queue does; `NewQueue` takes no others. -/
structure QueueOptions where
  size : ℕ
  attempts : ℕ
  backoff : ℕ
  size_pos : 0 < size
  attempts_pos : 0 < attempts

/-- What the sender says: no error, one that stays (`Permanent`), or another. -/
inductive MailReply
  | ok | permanent | temporary
  deriving DecidableEq

/-- Where `Run` is: before it looks whether it is to stop, in its `select`, at the same places of
`drain`, in an attempt, in the wait before one, and at the end. `failed` says what came of the
attempts before. -/
inductive QueueRun (M : Type)
  | run | select | drain | drainSelect | done
  | attempt (m : M) (attempt backoff : ℕ) (failed : List MailReply) (draining : Bool)
  | wait (m : M) (attempt backoff : ℕ) (failed : List MailReply) (draining : Bool)

namespace QueueRun

variable {M : Type}

/-- Whether `Run` has found that it is to stop. -/
def draining : QueueRun M → Bool
  | run | select => false
  | drain | drainSelect | done => true
  | attempt _ _ _ _ draining | wait _ _ _ _ draining => draining

/-- The mail in hand. -/
def inHand : QueueRun M → List M
  | attempt m .. | wait m .. => [m]
  | _ => []

/-- **The attempts**: each before has failed in a way that may pass. -/
def Fits (opts : QueueOptions) : QueueRun M → Prop
  | attempt _ n _ failed _ =>
    failed.length + 1 = n ∧ n ≤ opts.attempts ∧ ∀ r ∈ failed, r = .temporary
  | wait _ n _ failed _ => failed ≠ [] ∧
    failed.length + 1 = n ∧ n ≤ opts.attempts ∧ ∀ r ∈ failed, r = .temporary
  | _ => True

end QueueRun

/-- **The queue**: the channel, where `Run` is, whether it is to stop – and how many mails had been
taken in then – and whether the time is up; further the mails taken in, and those that have come to
an end with what was said of each. -/
structure MailQueue (M : Type) where
  ch : List M
  place : QueueRun M
  stopped : Option ℕ
  expired : Bool
  accepted : List M
  ended : List (M × List MailReply)

/-- A mail is sent to the queue; the server stops; the time is up; and `Run` goes on, with the answer
of the sender or whether the `select` finds its context done. -/
inductive MailAction (M : Type)
  | send (m : M)
  | stop
  | expire
  | go (reply : MailReply) (ctxDone : Bool)

namespace MailQueue

variable {M : Type} (opts : QueueOptions) (s : MailQueue M)

/-- `Send`: a mail is refused when the channel is full. -/
def send (m : M) : Option (MailQueue M) :=
  if s.ch.length < opts.size then some { s with ch := s.ch ++ [m], accepted := s.accepted ++ [m] }
  else none

/-- Take the next mail to `deliver`. -/
def take (draining : Bool) : Option (MailQueue M) :=
  s.ch.head?.map fun m =>
    { s with ch := s.ch.tail, place := .attempt m 1 opts.backoff [] draining }

/-- `deliver` returns. -/
def finish (m : M) (replies : List MailReply) (draining : Bool) : MailQueue M :=
  { s with ended := s.ended ++ [(m, replies)], place := if draining then .drain else .run }

/-- The next step of `Run`. -/
def go (reply : MailReply) (ctxDone : Bool) : Option (MailQueue M) :=
  match s.place with
  | .run => some { s with place := if s.stopped.isSome then .drain else .select }
  | .select =>
    if ctxDone then if s.stopped.isSome then some { s with place := .drain } else none
    else s.take opts false
  | .drain => some { s with place := if s.expired then .done else .drainSelect }
  | .drainSelect => if s.ch = [] then some { s with place := .done } else s.take opts true
  | .attempt m attempt backoff failed draining =>
    if reply ≠ .temporary ∨ s.expired ∨ opts.attempts ≤ attempt then
      some (s.finish m (failed ++ [reply]) draining)
    else some { s with place := .wait m (attempt + 1) backoff (failed ++ [reply]) draining }
  | .wait m attempt backoff failed draining =>
    if ctxDone then if s.expired then some (s.finish m failed draining) else none
    else if 0 < backoff ∨ s.expired = false then
      some { s with place := .attempt m attempt (2 * backoff) failed draining }
    else none
  | .done => none

def step : MailAction M → Option (MailQueue M)
  | .send m => s.send opts m
  | .stop => some { s with stopped := some (s.stopped.getD s.accepted.length) }
  | .expire => if s.stopped.isSome then some { s with expired := true } else none
  | .go reply ctxDone => s.go opts reply ctxDone

/-- **A mail has come to its end**: it was tried, again only after failures that may pass, and not
more often than it may be; and it is given up after such a failure only when it was tried as often,
or the time is up. -/
structure Ended (opts : QueueOptions) (expired : Bool) (replies : List MailReply) : Prop where
  tried : replies ≠ []
  most : replies.length ≤ opts.attempts
  again : ∀ r ∈ replies.dropLast, r = .temporary
  given : replies.getLast? = some .temporary → replies.length = opts.attempts ∨ expired

/-- **No mail is lost or sent twice.** -/
structure Kept : Prop where
  order : s.accepted = s.ended.map Prod.fst ++ s.place.inHand ++ s.ch
  ended : ∀ e ∈ s.ended, Ended opts s.expired e.2
  full : s.ch.length ≤ opts.size
  /-- All mails taken in before the stop have come to an end, unless the time was up. -/
  drained : s.place = .done → s.expired ∨ ∀ n ∈ s.stopped, n ≤ s.ended.length
  fits : s.place.Fits opts
  before : ∀ n ∈ s.stopped, n ≤ s.accepted.length
  late : s.place.draining → s.stopped.isSome

end MailQueue

/-- The runs of a queue. -/
def mailQueue (M : Type) (opts : QueueOptions) : TransitionSystem (MailQueue M) (MailAction M) where
  init s := s = ⟨[], .run, none, false, [], []⟩
  step := MailQueue.step opts

namespace MailQueue

open Option

variable {M : Type} {opts : QueueOptions} {s s' : MailQueue M} {m : M} {draining : Bool}
  {replies : List MailReply} {place : QueueRun M}

variable (h : s.Kept opts)
include h

theorem Kept.goes (hhand : place.inHand = s.place.inHand) (hfits : place.Fits opts)
    (hlate : place.draining → s.stopped.isSome)
    (hdone : place = .done → s.expired ∨ ∀ n ∈ s.stopped, n ≤ s.ended.length) :
    ({ s with place } : MailQueue M).Kept opts :=
  ⟨hhand ▸ h.order, h.ended, h.full, hdone, hfits, h.before, hlate⟩

theorem Kept.take (hhand : s.place.inHand = []) (hs : s.take opts draining = some s')
    (hlate : draining → s.stopped.isSome) : s'.Kept opts := by
  obtain ⟨m, hm, rfl⟩ := map_eq_some_iff.mp hs
  obtain ⟨rest, hch⟩ := head?_eq_some_iff.mp hm
  refine ⟨?_, h.ended, (length_tail ▸ Nat.sub_le ..).trans h.full, nofun,
    ⟨rfl, opts.attempts_pos, nofun⟩, h.before, hlate⟩
  show s.accepted = s.ended.map Prod.fst ++ [m] ++ s.ch.tail
  rw [h.order, hhand, hch, append_nil, append_assoc]
  rfl

theorem Kept.finish (hhand : s.place.inHand = [m]) (hlate : draining → s.stopped.isSome)
    (hended : Ended opts s.expired replies) : (s.finish m replies draining).Kept opts := by
  refine ⟨?_, fun e he => ?_, h.full, ?_, ?_, h.before, ?_⟩
  · have hnone : (s.finish m replies draining).place.inHand = [] := by cases draining <;> rfl
    show s.accepted = (s.ended ++ [(m, replies)]).map Prod.fst ++ _ ++ s.ch
    rw [hnone, h.order, hhand, map_append, append_nil]
    rfl
  · rcases mem_append.mp he with he | he
    · exact h.ended e he
    · exact mem_singleton.mp he ▸ hended
  · cases draining <;> exact nofun
  · cases draining <;> exact trivial
  · cases draining <;> exact hlate

theorem Kept.go {reply : MailReply} {ctxDone : Bool} (hs : s.go opts reply ctxDone = some s') :
    s'.Kept opts := by
  obtain ⟨ch, place, stopped, expired, accepted, ended⟩ := s
  have hfits := h.fits
  cases place with
  | run =>
    obtain rfl := some.inj hs
    cases stopped
    · exact h.goes rfl trivial nofun nofun
    · exact h.goes rfl trivial (fun _ => rfl) nofun
  | select =>
    cases ctxDone with
    | false => exact h.take rfl hs nofun
    | true =>
      obtain ⟨hstopped, heq⟩ := ite_none_right_eq_some.mp hs
      obtain rfl := some.inj heq
      exact h.goes rfl trivial (fun _ => hstopped) nofun
  | drain =>
    obtain rfl := some.inj hs
    cases expired
    · exact h.goes rfl trivial h.late nofun
    · exact h.goes rfl trivial h.late fun _ => .inl rfl
  | drainSelect =>
    simp only [MailQueue.go] at hs
    split at hs
    · next hnil =>
      obtain rfl := some.inj hs
      -- the channel is empty, so all mails taken in have come to an end
      have hlength := congrArg length h.order
      refine h.goes rfl trivial h.late fun _ => .inr fun n hn => (h.before n hn).trans ?_
      simpa [QueueRun.inHand, hnil] using hlength.le
    · exact h.take rfl hs h.late
  | done => cases hs
  | attempt m attempt backoff failed draining =>
    obtain ⟨rfl, hmost, hpassing⟩ := hfits
    simp only [MailQueue.go] at hs
    split at hs
    · next hend =>
      obtain rfl := some.inj hs
      refine h.finish rfl h.late ⟨by simp, by simpa using hmost, by simpa using hpassing,
        fun hlast => ?_⟩
      rw [getLast?_concat] at hlast
      obtain hnot | hup | hlast' := hend
      · exact absurd (some.inj hlast) hnot
      · exact .inr hup
      · exact .inl (by simpa using hmost.antisymm hlast')
    · next hagain =>
      obtain rfl := some.inj hs
      obtain ⟨htemporary, hless⟩ := not_or.mp hagain
      refine h.goes rfl ⟨by simp, by simp, not_le.mp fun hle => hless (.inr hle), ?_⟩ h.late nofun
      simpa [or_imp, forall_and] using ⟨hpassing, not_not.mp htemporary⟩
  | wait m attempt backoff failed draining =>
    obtain ⟨hne, rfl, hmost, hpassing⟩ := hfits
    cases ctxDone with
    | true =>
      obtain ⟨hup, heq⟩ := ite_none_right_eq_some.mp hs
      obtain rfl := some.inj heq
      exact h.finish rfl h.late ⟨hne, (Nat.le_succ _).trans hmost,
        fun r hr => hpassing r (mem_of_mem_dropLast hr), fun _ => .inr hup⟩
    | false =>
      obtain ⟨-, heq⟩ := ite_none_right_eq_some.mp hs
      obtain rfl := some.inj heq
      exact h.goes rfl ⟨rfl, hmost, hpassing⟩ h.late nofun

theorem Kept.step {a : MailAction M} (hs : s.step opts a = some s') : s'.Kept opts := by
  cases a with
  | send m =>
    obtain ⟨hroom, heq⟩ := ite_none_right_eq_some.mp hs
    obtain rfl := some.inj heq
    refine ⟨?_, h.ended, by simpa using hroom, h.drained, h.fits,
      fun n hn => (h.before n hn).trans (by simp), h.late⟩
    show s.accepted ++ [m] = s.ended.map Prod.fst ++ s.place.inHand ++ (s.ch ++ [m])
    rw [h.order]
    simp
  | stop =>
    obtain rfl := some.inj hs
    refine ⟨h.order, h.ended, h.full, fun hdone => (h.drained hdone).imp_right fun hall n hn => ?_,
      h.fits, fun n hn => ?_, fun _ => rfl⟩
    · obtain ⟨m, hm⟩ := isSome_iff_exists.mp (h.late (by rw [hdone]; rfl))
      rw [hm] at hn
      exact some.inj hn ▸ hall m hm
    · obtain rfl := some.inj hn
      cases hstopped : s.stopped with
      | none => exact le_rfl
      | some n => exact h.before n hstopped
  | expire =>
    obtain ⟨-, heq⟩ := ite_none_right_eq_some.mp hs
    obtain rfl := some.inj heq
    exact ⟨h.order, fun e he => { h.ended e he with given := fun _ => .inr rfl }, h.full,
      fun _ => .inl rfl, h.fits, h.before, h.late⟩
  | go reply ctxDone => exact h.go hs

end MailQueue

/-- **No mail that was taken in is lost or sent twice.** -/
theorem mails_kept {M : Type} {opts : QueueOptions} {s : MailQueue M}
    (h : (mailQueue M opts).Reachable s) : s.Kept opts := by
  refine h.invariant (I := MailQueue.Kept opts) ?_ fun s a s' hs _ hstep => hs.step hstep
  rintro _ rfl
  exact ⟨rfl, nofun, Nat.zero_le _, nofun, trivial, nofun, nofun⟩

def twice : QueueOptions := ⟨2, 2, 1, Nat.zero_lt_two, Nat.zero_lt_two⟩

/-- A mail is given up after two attempts. -/
theorem mails_kept_twice : ∃ s, (mailQueue ℕ twice).Reachable s ∧ s.Kept twice ∧
    s.ended = [(7, [.temporary, .temporary])] := by
  have hrun : ((mailQueue ℕ twice).run ⟨[], .run, none, false, [], []⟩
      ([.send 7, .stop] ++ List.replicate 6 (.go .temporary false))).any
      (fun s => s.ended = [(7, [.temporary, .temporary])]) = true := by decide
  obtain ⟨s, hs, htest⟩ := TransitionSystem.exists_of_run hrun rfl
  exact ⟨s, hs, mails_kept hs, of_decide_eq_true htest⟩

end Hibari
