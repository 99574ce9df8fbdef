import Hibari.Broker

/-!
# What the broker's answers are worth

In every run, the count of a channel is the number of calls that need it, an
UNSUBSCRIBE is sent when nobody does, and who waits is woken once (`Orderly`).

That an `Acquire` which returned without an error has its channel subscribed to
(`acquire_truthful`) needs one condition more. The first `Acquire` of a channel
counts before its SUBSCRIBE is sent; if sending fails it gives the count back, but
lets go of `writeMu` in between. An `Acquire` that comes then finds the channel
counted, takes it for subscribed, and compares the number of no SUBSCRIBE – zero –
with the PONGs: it returns at once (`acquired_without_subscribe`).
-/

namespace Hibari

open List Function Threads

namespace BrokerTask

/-- How many of the count of a channel a call stands for. -/
def counts (ch : Channel) : BrokerTask → ℕ
  | .subscribing ch' => if ch' = ch then 1 else 0
  | .record ch' => if ch' = ch then 1 else 0
  | .confirm ch' => if ch' = ch then 1 else 0
  | .pingAndWait goal => if goal = some ch then 1 else 0
  | .pinging goal _ => if goal = some ch then 1 else 0
  | .waiting goal _ => if goal = some ch then 1 else 0
  | .forget goal _ => if goal = some ch then 1 else 0
  | .held ch' => if ch' = ch then 1 else 0
  | .release ch' => if ch' = ch then 1 else 0
  | _ => 0

/-- Whether a call holds `writeMu`. -/
def inside : BrokerTask → Bool
  | .subscribing _ => true
  | .record _ => true
  | .confirm _ => true
  | .pingAndWait _ => true
  | .pinging _ _ => true
  | .unsubscribe _ => true
  | _ => false

/-- The number of the PING of a call. -/
def token : BrokerTask → Option ℕ
  | .pinging _ n => some n
  | .waiting _ n => some n
  | .forget _ n => some n
  | _ => none

/-- The PONG that a call waits for, or is about to. -/
def awaits : BrokerTask → Option ℕ
  | .pinging _ n => some n
  | .waiting _ n => some n
  | _ => none

theorem counts_reached (goal : Option Channel) (ch : Channel) :
    (reached goal).counts ch = if goal = some ch then 1 else 0 := by
  cases goal with
  | none => rfl
  | some ch' =>
    show (if ch' = ch then 1 else 0) = _
    simp

theorem counts_givenUp (goal : Option Channel) (ch : Channel) :
    (givenUp goal).counts ch = if goal = some ch then 1 else 0 := by
  cases goal with
  | none => rfl
  | some ch' =>
    show (if ch' = ch then 1 else 0) = _
    simp

@[simp] theorem inside_reached (goal : Option Channel) : (reached goal).inside = false := by
  cases goal <;> rfl

@[simp] theorem inside_givenUp (goal : Option Channel) : (givenUp goal).inside = false := by
  cases goal <;> rfl

@[simp] theorem token_reached (goal : Option Channel) : (reached goal).token = none := by
  cases goal <;> rfl

@[simp] theorem token_givenUp (goal : Option Channel) : (givenUp goal).token = none := by
  cases goal <;> rfl

theorem token_of_awaits {t : BrokerTask} {n : ℕ} (h : t.awaits = some n) : t.token = some n := by
  cases t <;> first | exact h | exact absurd h (by simp [awaits])

end BrokerTask

open BrokerTask

/-! ## Waking -/

namespace Broker

variable {b : Broker} {p : ℕ → Bool} {r : Wake} {n : ℕ}

theorem mem_waiters_wake : n ∈ (b.wake p r).waiters ↔ n ∈ b.waiters ∧ p n = false := by
  show n ∈ b.waiters.filter (fun t => !p t) ↔ _
  rw [Finset.mem_filter, Bool.not_eq_true']

theorem inbox_wake_of_mem (hn : n ∈ b.waiters) (hp : p n = true) :
    (b.wake p r).inbox n = b.inbox n ++ [r] := if_pos ⟨hn, hp⟩

theorem inbox_wake_of_not (h : ¬ (n ∈ b.waiters ∧ p n = true)) :
    (b.wake p r).inbox n = b.inbox n := if_neg h

/-- What is in an inbox after somebody was woken was there, or woke. -/
theorem mem_inbox_wake {x : Wake} (h : x ∈ (b.wake p r).inbox n) :
    x ∈ b.inbox n ∨ x = r ∧ p n = true := by
  by_cases hboth : n ∈ b.waiters ∧ p n = true
  · rw [inbox_wake_of_mem hboth.1 hboth.2] at h
    exact (mem_append.mp h).imp_right fun hx => ⟨mem_singleton.mp hx, hboth.2⟩
  · rw [inbox_wake_of_not hboth] at h
    exact .inl h

/-- **Everybody who waits can be woken, and nobody is woken twice**: who waits
has nothing in the inbox, an inbox has one entry at most, and numbers that were
not given out have none. -/
structure WakesOnce (b : Broker) : Prop where
  waiters : ∀ n ∈ b.waiters, n ≤ b.seq ∧ b.inbox n = []
  inbox : ∀ n, (b.inbox n).length ≤ 1 ∧ (b.inbox n ≠ [] → n ≤ b.seq)

theorem WakesOnce.wake (h : b.WakesOnce) : (b.wake p r).WakesOnce := by
  refine ⟨fun n hn => ?_, fun n => ?_⟩
  · obtain ⟨hmem, hp⟩ := mem_waiters_wake.mp hn
    rw [inbox_wake_of_not fun hboth => Bool.false_ne_true (hp.symm.trans hboth.2)]
    exact h.waiters n hmem
  · by_cases hboth : n ∈ b.waiters ∧ p n = true
    · obtain ⟨hseq, hempty⟩ := h.waiters n hboth.1
      rw [inbox_wake_of_mem hboth.1 hboth.2, hempty]
      exact ⟨le_rfl, fun _ => hseq⟩
    · rw [inbox_wake_of_not hboth]
      exact h.inbox n

/-- Who waits is still waiting, or has been woken. -/
theorem waits_or_woken_wake (h : n ∈ b.waiters ∨ b.inbox n ≠ []) :
    n ∈ (b.wake p r).waiters ∨ (b.wake p r).inbox n ≠ [] := by
  by_cases hboth : n ∈ b.waiters ∧ p n = true
  · rw [inbox_wake_of_mem hboth.1 hboth.2]
    exact .inr (append_ne_nil_of_right_ne_nil _ (by simp))
  · rw [inbox_wake_of_not hboth, mem_waiters_wake]
    rcases h with hn | hn
    · exact .inl ⟨hn, Bool.eq_false_iff.mpr fun hp => hboth ⟨hn, hp⟩⟩
    · exact .inr hn

end Broker

open Broker

/-! ## Every run -/

section Moves

variable {i : ℕ} {b b' : Broker} {t t' : BrokerTask}

section

variable (hmove : BrokerMoves i b t b' t')
include hmove

/-- `writeMu` passes as the places of a call say. -/
theorem BrokerMoves.writer (hin : t.inside = true → b.writer = some i) :
    ((t.inside = true ∨ b.writer = none) ∧ b'.writer = if t'.inside then some i else none) ∨
      (t.inside = false ∧ t'.inside = false ∧ b'.writer = b.writer) := by
  cases hmove with
  | closed => exact .inl ⟨.inl rfl, by rw [inside_givenUp]; rfl⟩
  | subscribed | record | unconfirmed | numbered => exact .inl ⟨.inl rfl, hin rfl⟩
  | woken goal => exact .inr ⟨rfl, inside_reached goal, rfl⟩
  | refused | failed => exact .inr ⟨rfl, rfl, rfl⟩
  | forget goal => exact .inr ⟨rfl, inside_givenUp goal, rfl⟩
  | first _ hfree | join _ hfree | sync hfree | releaseLast _ hfree =>
    exact .inl ⟨.inr hfree, rfl⟩
  | release _ hfree => exact .inl ⟨.inr hfree, hfree⟩
  | _ => exact .inl ⟨.inl rfl, rfl⟩

/-- The count of a channel changes by what the call stands for. -/
theorem BrokerMoves.refs (ch : Channel) (hle : t.counts ch ≤ b.refs ch) :
    b'.refs ch + t.counts ch = b.refs ch + t'.counts ch := by
  have hadd : ∀ ch', (b.addRef ch').refs ch = b.refs ch + if ch' = ch then 1 else 0 := by
    intro ch'
    show update b.refs ch' (b.refs ch' + 1) ch = _
    by_cases hch : ch = ch'
    · subst hch
      rw [update_self, if_pos rfl]
    · rw [update_of_ne hch, if_neg (Ne.symm hch), Nat.add_zero]
  have hdrop : ∀ ch', (BrokerTask.release ch').counts ch ≤ b.refs ch →
      (b.dropRef ch').refs ch + (if ch' = ch then 1 else 0) = b.refs ch := by
    intro ch' hcount
    show update b.refs ch' (b.refs ch' - 1) ch + _ = _
    by_cases hch : ch = ch'
    · subst hch
      have hone : 1 ≤ b.refs ch := by simpa [BrokerTask.counts] using hcount
      rw [update_self, if_pos rfl]
      omega
    · rw [update_of_ne hch, if_neg (Ne.symm hch), Nat.add_zero]
  cases hmove with
  | first ch' | join ch' => exact hadd ch'
  | woken => rw [counts_reached]; rfl
  | closed | forget => rw [counts_givenUp]; rfl
  | releaseLast ch' | release ch' => exact hdrop ch' hle
  | unconfirmed ch' =>
    show b.refs ch + (if ch' = ch then 1 else 0) = b.refs ch + if some ch' = some ch then 1 else 0
    simp
  | _ => rfl

/-- While another call holds `writeMu`, a call can only stop to wait. -/
theorem BrokerMoves.frame (hout : t.inside = false)
    (htaken : b.writer ≠ none) : ∃ waiters ⊆ b.waiters, b' = { b with waiters := waiters } := by
  cases hmove with
  | woken | failed => exact ⟨b.waiters, subset_rfl, rfl⟩
  | forget _ token => exact ⟨b.waiters.erase token, Finset.erase_subset _ _, rfl⟩
  | refused ch hfree | first ch hfree hnew | join ch hfree hopen hjoin | sync hfree
  | releaseLast _ hfree | release _ hfree => exact absurd hfree htaken
  | _ => exact absurd hout (by simp [BrokerTask.inside])

/-- Numbers only grow, and the call that is numbered gets the next one. -/
theorem BrokerMoves.seq : b.seq ≤ b'.seq ∧
    ∀ n, t'.token = some n → t.token = some n ∨ (n = b.seq + 1 ∧ b'.seq = b.seq + 1) := by
  cases hmove with
  | subscribed => exact ⟨Nat.le_succ _, fun n hn => absurd hn (by simp [BrokerTask.token])⟩
  | numbered => exact ⟨Nat.le_succ _, fun n hn => .inr ⟨(Option.some.inj hn).symm, rfl⟩⟩
  | pinged | notPinged | pingedInVain | failed =>
    exact ⟨le_rfl, fun n hn => Or.inl hn⟩
  | closed goal | woken goal token rest hinbox | forget goal token =>
    exact ⟨le_rfl, fun n hn => absurd hn (by simp)⟩
  | _ => exact ⟨le_rfl, fun n hn => absurd hn (by simp [BrokerTask.token])⟩

/-- A step of a call wakes nobody. -/
theorem BrokerMoves.wakesOnce (h : b.WakesOnce) :
    b'.WakesOnce := by
  cases hmove with
  | subscribed =>
    exact ⟨fun n hn => ⟨(h.waiters n hn).1.trans (Nat.le_succ _), (h.waiters n hn).2⟩,
      fun n => ⟨(h.inbox n).1, fun hne => ((h.inbox n).2 hne).trans (Nat.le_succ _)⟩⟩
  | numbered =>
    refine ⟨fun n hn => ?_, fun n => ⟨(h.inbox n).1, fun hne =>
      ((h.inbox n).2 hne).trans (Nat.le_succ _)⟩⟩
    by_cases hnew : n = b.seq + 1
    · subst hnew
      refine ⟨le_rfl, ?_⟩
      by_contra hne
      exact absurd ((h.inbox _).2 hne) (Nat.not_succ_le_self _)
    · have hold := Finset.mem_of_mem_insert_of_ne hn hnew
      exact ⟨(h.waiters n hold).1.trans (Nat.le_succ _), (h.waiters n hold).2⟩
  | forget => exact ⟨fun n hn => h.waiters n (Finset.mem_of_mem_erase hn), h.inbox⟩
  | pingedInVain => exact ⟨h.waiters, h.inbox⟩
  | _ => exact ⟨h.waiters, h.inbox⟩

/-- Who waits is still waiting after a step of another call, or has been
woken. -/
theorem BrokerMoves.waits {n : ℕ} (hother : t.token ≠ some n)
    (hwaits : n ∈ b.waiters ∨ b.inbox n ≠ []) : n ∈ b'.waiters ∨ b'.inbox n ≠ [] := by
  cases hmove with
  | numbered => exact hwaits.imp_left (Finset.mem_insert_of_mem ·)
  | forget _ token =>
    have hne : n ≠ token := fun heq => hother (by rw [heq]; rfl)
    exact hwaits.imp_left fun hn => Finset.mem_erase.mpr ⟨hne, hn⟩
  | _ => exact hwaits

/-- A call that goes on waiting, or begins to, is waiting or has been woken. -/
theorem BrokerMoves.awaits {n : ℕ} (hawaits : t'.awaits = some n)
    (hwaits : t.awaits = some n → n ∈ b.waiters ∨ b.inbox n ≠ []) :
    n ∈ b'.waiters ∨ b'.inbox n ≠ [] := by
  cases hmove with
  | numbered =>
    cases hawaits
    exact .inl (Finset.mem_insert_self _ _)
  | pinged => exact hwaits hawaits
  | closed goal => cases goal <;> exact absurd hawaits (by simp [BrokerTask.awaits, givenUp])
  | woken goal =>
    cases goal <;> exact absurd hawaits (by simp [BrokerTask.awaits, reached])
  | forget goal =>
    cases goal <;> exact absurd hawaits (by simp [BrokerTask.awaits, givenUp])
  | _ => exact absurd hawaits (by simp [BrokerTask.awaits])

end

end Moves

/-- What holds at a place where `writeMu` is held: who subscribes is alone, and
who unsubscribes is the last. -/
def BrokerTask.Stage (b : Broker) : BrokerTask → Prop
  | .subscribing ch => b.refs ch = 1
  | .record ch => b.refs ch = 1
  | .unsubscribe ch => b.refs ch = 0
  | _ => True

theorem BrokerMoves.stage {i : ℕ} {b b' : Broker} {t t' : BrokerTask}
    (hmove : BrokerMoves i b t b' t') (h : t.Stage b) : t'.Stage b' := by
  cases hmove with
  | first ch _ hnew =>
    show update b.refs ch (b.refs ch + 1) ch = 1
    rw [update_self, hnew]
  | subscribed => exact h
  | closed goal | woken goal | forget goal => cases goal <;> trivial
  | releaseLast ch _ hlast =>
    show update b.refs ch (b.refs ch - 1) ch = 0
    rw [update_self, hlast]
  | _ => trivial

/-- **What holds in every run**: `writeMu` has one holder, the count of a channel
is the number of calls that stand for it, nobody is woken twice, and numbers are
given out once. -/
structure BrokerState.Orderly (s : BrokerState) : Prop where
  exclusive : Threads.Exclusive BrokerTask.inside s.tasks s.broker.writer
  refs : ∀ ch, s.broker.refs ch = (s.tasks.map (·.counts ch)).sum
  stage : ∀ t ∈ s.tasks, t.Stage s.broker
  wakes : s.broker.WakesOnce
  fresh : ∀ t ∈ s.tasks, ∀ n, t.token = some n → n ≤ s.broker.seq
  own : ∀ (i j : ℕ) (t u : BrokerTask) (n : ℕ), s.tasks[i]? = some t → s.tasks[j]? = some u → t.token = some n →
    u.token = some n → i = j
  awaited : ∀ t ∈ s.tasks, ∀ n, t.awaits = some n → n ∈ s.broker.waiters ∨ s.broker.inbox n ≠ []

namespace BrokerState.Orderly

variable {s : BrokerState}

/-- What calls do not change may change without them. -/
theorem congr (h : Orderly s) (b : Broker) (hwriter : b.writer = s.broker.writer)
    (hrefs : b.refs = s.broker.refs) (hseq : b.seq = s.broker.seq) (hwakes : b.WakesOnce)
    (hawaited : ∀ n, n ∈ s.broker.waiters ∨ s.broker.inbox n ≠ [] →
      n ∈ b.waiters ∨ b.inbox n ≠ []) : Orderly { s with broker := b } := by
  refine ⟨hwriter ▸ h.exclusive, fun ch => ?_, fun t ht => ?_, hwakes, fun t ht n hn => ?_, h.own,
    fun t ht n hn => hawaited n (h.awaited t ht n hn)⟩
  · show b.refs ch = _
    rw [hrefs]
    exact h.refs ch
  · have hstage := h.stage t ht
    cases t <;> first | trivial | (unfold BrokerTask.Stage at *; rw [hrefs]; exact hstage)
  · show n ≤ b.seq
    rw [hseq]
    exact h.fresh t ht n hn

/-- A call takes a step. -/
theorem advance (h : Orderly s) {i : ℕ} {t t' : BrokerTask} {b : Broker}
    (ht : s.tasks[i]? = some t) (hmove : BrokerMoves i s.broker t b t') :
    Orderly ⟨b, s.tasks.set i t'⟩ := by
  have hmem := mem_of_getElem? ht
  obtain ⟨hseq, htoken⟩ := hmove.seq
  have hset := getElem?_set ht t'
  refine ⟨?_, fun ch => ?_, fun u hu => ?_, hmove.wakesOnce h.wakes, fun u hu n hn => ?_, ?_,
    fun u hu n hn => ?_⟩
  · rcases hmove.writer (h.exclusive.iff ht).mp with ⟨hturn, hw⟩ | ⟨hout, hout', hw⟩
    · show Threads.Exclusive _ _ b.writer
      rw [hw]
      exact h.exclusive.turn ht hturn t'
    · show Threads.Exclusive _ _ b.writer
      rw [hw]
      exact h.exclusive.outside ht hout hout'
  · have hle : t.counts ch ≤ s.broker.refs ch := by
      rw [h.refs ch]
      exact le_sum (g := (·.counts ch)) ht
    have hrefs := hmove.refs ch hle
    have hsum := sum_set (fun t : BrokerTask => t.counts ch) ht t'
    have hold := h.refs ch
    show b.refs ch = ((s.tasks.set i t').map fun t => t.counts ch).sum
    omega
  · by_cases hin : u.inside = true
    · obtain ⟨j, hj⟩ := mem_iff_getElem?.mp hu
      rw [hset j] at hj
      by_cases hij : i = j
      · rw [if_pos hij] at hj
        cases hj
        exact hmove.stage (h.stage t hmem)
      · -- the call that is inside is another, so this step leaves the counts
        rw [if_neg hij] at hj
        have howner := (h.exclusive.iff hj).mp hin
        have hout : t.inside = false := Bool.eq_false_iff.mpr fun htin =>
          hij (h.exclusive.unique ht hj htin hin)
        obtain ⟨waiters, -, rfl⟩ := hmove.frame hout (by rw [howner]; simp)
        have hstage := h.stage u (mem_of_getElem? hj)
        cases u <;> trivial
    · cases u <;> trivial
  · rcases mem_set hu with hu | rfl
    · exact (h.fresh u hu n hn).trans hseq
    · rcases htoken n hn with hn | ⟨rfl, hnew⟩
      · exact (h.fresh t hmem n hn).trans hseq
      · exact hnew.ge
  · -- a number of the call that steps is its own, or new
    have hnew : ∀ j u n, s.tasks[j]? = some u → u.token = some n → t'.token = some n → i = j := by
      intro j u n hj hu hn
      rcases htoken n hn with hn | ⟨rfl, -⟩
      · exact h.own i j t u n ht hj hn hu
      · exact absurd (h.fresh u (mem_of_getElem? hj) _ hu) (Nat.not_succ_le_self _)
    intro j k u v n hj hk hu hv
    rw [hset j] at hj
    rw [hset k] at hk
    by_cases hij : i = j
    · by_cases hik : i = k
      · exact hij.symm.trans hik
      · rw [if_pos hij] at hj
        rw [if_neg hik] at hk
        cases hj
        exact absurd (hnew k v n hk hv hu) hik
    · rw [if_neg hij] at hj
      by_cases hik : i = k
      · rw [if_pos hik] at hk
        cases hk
        exact absurd (hnew j u n hj hu hv) hij
      · rw [if_neg hik] at hk
        exact h.own j k u v n hj hk hu hv
  · obtain ⟨j, hj⟩ := mem_iff_getElem?.mp hu
    rw [hset j] at hj
    by_cases hij : i = j
    · rw [if_pos hij] at hj
      cases hj
      exact hmove.awaits hn (h.awaited t hmem n)
    · rw [if_neg hij] at hj
      refine hmove.waits (fun htoken => ?_) (h.awaited u (mem_of_getElem? hj) n hn)
      exact hij (h.own i j t u n ht hj htoken (token_of_awaits hn))

end BrokerState.Orderly

/-! ## Subscriptions -/

namespace Broker

variable {b : Broker} {ch : Channel} {k n : ℕ}
  {c : BrokerCommand} {rest : List BrokerReply} {kept : ℕ}

/-- Redis has processed a SUBSCRIBE of a channel, and no UNSUBSCRIBE of it was
sent after that SUBSCRIBE. -/
def Serves (b : Broker) (ch : Channel) : Prop :=
  b.link.Served (BrokerCommand.Subscribes ch) (BrokerCommand.Unsubscribes ch)

/-- When Redis comes to command `p`, it serves a channel. -/
def Covers (b : Broker) (ch : Channel) (p : ℕ) : Prop :=
  b.link.Covered (BrokerCommand.Subscribes ch) (BrokerCommand.Unsubscribes ch) p

/-- **What the number `k` of a channel's SUBSCRIBE means**: the SUBSCRIBE is
sent and will be sent again, and a PONG of number `k` or more, whether noted,
received or yet to come, says that Redis serves the channel. -/
structure Recorded (b : Broker) (ch : Channel) (k : ℕ) : Prop where
  listed : ch ∈ b.listed
  covered : b.Covers ch b.link.sent.length
  acked : k ≤ b.acked → b.Serves ch
  pongs : ∀ n, .pong n ∈ b.replies → k ≤ n → b.Serves ch
  pings : ∀ p n, b.link.next ≤ p → b.link.sent[p]? = some (.ping n) → k ≤ n → b.Covers ch p

/-- Every number on a PING or PONG is below `n`. -/
structure Below (b : Broker) (n : ℕ) : Prop where
  acked : b.acked < n
  pongs : ∀ m, .pong m ∈ b.replies → m < n
  pings : ∀ p m, b.link.next ≤ p → b.link.sent[p]? = some (.ping m) → m < n

theorem Below.mono {m : ℕ} (h : b.Below n) (hnm : n ≤ m) : b.Below m :=
  ⟨h.acked.trans_le hnm, fun q hq => (h.pongs q hq).trans_le hnm,
    fun p q hp hq => (h.pings p q hp hq).trans_le hnm⟩

/-- **A command that is sent** leaves what a number means, unless it unsubscribes
from the channel. -/
theorem Recorded.send (h : b.Recorded ch k) (hc : ¬ c.Unsubscribes ch) :
    Broker.Recorded { b with link := b.link.send c } ch k := by
  refine ⟨h.listed, ?_, fun hk => (h.acked hk).send hc, fun n hn hk => (h.pongs n hn hk).send hc,
    fun p n hp hping hk => ?_⟩
  · refine (h.covered.send hc).mono ?_
    show b.link.sent.length ≤ (b.link.sent ++ [c]).length
    rw [length_append]
    exact Nat.le_add_right _ _
  · rcases Wire.getElem?_send hping with hold | ⟨rfl, -⟩
    · exact (h.pings p n hp hold hk).send hc
    · exact h.covered.send hc

theorem Below.send (h : b.Below n) (hc : ∀ m, c = .ping m → m < n) :
    Broker.Below { b with link := b.link.send c } n := by
  refine ⟨h.acked, h.pongs, fun p m hp hping => ?_⟩
  rcases Wire.getElem?_send hping with hold | ⟨-, heq⟩
  · exact h.pings p m hp hold
  · exact hc m heq.symm

/-- What Redis answers with a PONG was a PING. -/
theorem mem_answer (h : BrokerReply.pong n ∈ answer c) : c = .ping n := by
  cases c with
  | ping =>
    obtain h := mem_singleton.mp h
    rw [BrokerReply.pong.inj h]
  | resubscribe => cases mem_singleton.mp h
  | _ => cases h

/-- **A command that is processed** leaves what a number means: the PONG of a PING
comes after what was sent before the PING was processed. -/
theorem Recorded.process (h : b.Recorded ch k) (hc : b.link.sent[b.link.next]? = some c) :
    Broker.Recorded { b with link := b.link.process, replies := b.replies ++ answer c } ch k := by
  refine ⟨h.listed, h.covered.process, fun hk => (h.acked hk).process, fun n hn hk => ?_,
    fun p n hp hping hk => (h.pings p n (Nat.le_of_succ_le hp) hping hk).process⟩
  rcases mem_append.mp hn with hold | hnew
  · exact (h.pongs n hold hk).process
  · obtain rfl := mem_answer hnew
    exact (h.pings b.link.next n le_rfl hc hk).served.process

theorem Below.process (h : b.Below n) (hc : b.link.sent[b.link.next]? = some c) :
    Broker.Below { b with link := b.link.process, replies := b.replies ++ answer c } n := by
  refine ⟨h.acked, fun m hm => ?_, fun p m hp hping => h.pings p m (Nat.le_of_succ_le hp) hping⟩
  rcases mem_append.mp hm with hold | hnew
  · exact h.pongs m hold
  · obtain rfl := mem_answer hnew
    exact h.pings b.link.next m le_rfl hc

/-- A PONG that is received leaves what a number means. -/
theorem Recorded.receive {r : BrokerReply} (h : b.Recorded ch k) (hreply : b.replies = r :: rest) :
    Broker.Recorded (Broker.receive { b with replies := rest } r) ch k := by
  have hrest : ∀ n, .pong n ∈ rest → k ≤ n → b.Serves ch := fun n hn =>
    h.pongs n (hreply ▸ .tail _ hn)
  cases r with
  | control => exact ⟨h.listed, h.covered, h.acked, hrest, h.pings⟩
  | pong n =>
    refine ⟨h.listed, h.covered, fun hk => ?_, hrest, h.pings⟩
    rcases le_max_iff.mp hk with hn | hk
    · exact h.pongs n (hreply ▸ (.head _)) hn
    · exact h.acked hk

theorem Below.receive {r : BrokerReply} (h : b.Below n) (hreply : b.replies = r :: rest) :
    Broker.Below (Broker.receive { b with replies := rest } r) n := by
  have hrest : ∀ m, .pong m ∈ rest → m < n := fun m hm =>
    h.pongs m (hreply ▸ .tail _ hm)
  cases r with
  | control => exact ⟨h.acked, hrest, h.pings⟩
  | pong m => exact ⟨max_lt (h.pongs m (hreply ▸ (.head _))) h.acked, hrest, h.pings⟩

theorem covers_reconnect (hlisted : ch ∈ b.listed) :
    (b.reconnect kept).Covers ch (b.reconnect kept).link.sent.length :=
  Wire.covered_send (w := b.link.lose) (c := .resubscribe b.listed) hlisted le_rfl

theorem no_ping_reconnect {p : ℕ} (hp : (b.reconnect kept).link.next ≤ p) :
    (b.reconnect kept).link.sent[p]? ≠ some (.ping n) := by
  intro hping
  rcases Wire.getElem?_send hping with hold | ⟨-, heq⟩
  · exact absurd (List.getElem?_eq_some_iff.mp hold).1 (Nat.not_lt.mpr hp)
  · exact BrokerCommand.noConfusion heq

theorem Recorded.reconnect (h : b.Recorded ch k) (kept : ℕ) : (b.reconnect kept).Recorded ch k := by
  have hserves : b.Serves ch → (b.reconnect kept).Serves ch := fun hs => hs.lose.send not_false
  exact ⟨h.listed, covers_reconnect h.listed, fun hk => hserves (h.acked hk),
    fun n hn hk => hserves (h.pongs n (mem_of_mem_take hn) hk),
    fun p n hp hping => absurd hping (no_ping_reconnect hp)⟩

theorem Below.reconnect (h : b.Below n) (kept : ℕ) : (b.reconnect kept).Below n :=
  ⟨h.acked, fun m hm => h.pongs m (mem_of_mem_take hm),
    fun _ _ hp hping => absurd hping (no_ping_reconnect hp)⟩

end Broker

/-- **What a call knows about its channel** at each place: that its SUBSCRIBE is
sent, that it is recorded, and in the end that a PONG has confirmed it. -/
def BrokerTask.Knows (b : Broker) : BrokerTask → Prop
  | .record ch => ch ∈ b.listed ∧ b.Covers ch b.link.sent.length ∧ b.Below b.seq
  | .confirm ch => ∃ k, b.subscribedAt ch = some k
  | .pingAndWait goal => ∀ ch, goal = some ch → ∃ k, b.subscribedAt ch = some k
  | .pinging goal n => ∀ ch, goal = some ch → ∃ k ≤ n, b.subscribedAt ch = some k
  | .waiting goal n => ∀ ch, goal = some ch → ∃ k ≤ n, b.subscribedAt ch = some k
  | .held ch => ∃ k ≤ b.acked, b.subscribedAt ch = some k
  | _ => True

/-- **What holds while no call joins a channel without a SUBSCRIBE**: what a
number means, and what a call knows. -/
structure BrokerState.Truthful (s : BrokerState) : Prop where
  next_le : s.broker.link.next ≤ s.broker.link.sent.length
  below : s.broker.Below (s.broker.seq + 1)
  recorded : ∀ ch k, s.broker.subscribedAt ch = some k →
    k ≤ s.broker.seq ∧ 1 ≤ s.broker.refs ch ∧ s.broker.Recorded ch k
  knows : ∀ t ∈ s.tasks, t.Knows s.broker
  inbox : ∀ n, .acked ∈ s.broker.inbox n → n ≤ s.broker.acked

section Moves

variable {i : ℕ} {b b' : Broker} {t t' u : BrokerTask}

/-- A call knows what it knew where the entries of its channel did not change
and, if it is subscribing, where nothing did. -/
theorem BrokerTask.Knows.congr (h : u.Knows b)
    (hsame : ∀ ch, u.counts ch ≠ 0 → b'.subscribedAt ch = b.subscribedAt ch)
    (hacked : b.acked ≤ b'.acked)
    (hrecord : ∀ ch, u = .record ch → (BrokerTask.record ch).Knows b') : u.Knows b' := by
  have hone : ∀ ch : Channel, (if ch = ch then 1 else 0) ≠ 0 := fun ch => by simp
  cases u with
  | record ch => exact hrecord ch rfl
  | confirm ch =>
    obtain ⟨k, hk⟩ := h
    exact ⟨k, (hsame ch (hone ch)).trans hk⟩
  | pingAndWait =>
    intro ch hgoal
    obtain ⟨k, hk⟩ := h ch hgoal
    exact ⟨k, (hsame ch (by simp [counts, hgoal])).trans hk⟩
  | pinging | waiting =>
    intro ch hgoal
    obtain ⟨k, hn, hk⟩ := h ch hgoal
    exact ⟨k, hn, (hsame ch (by simp [counts, hgoal])).trans hk⟩
  | held ch =>
    obtain ⟨k, hn, hk⟩ := h
    exact ⟨k, hn.trans hacked, (hsame ch (hone ch)).trans hk⟩
  | _ => trivial

section

variable (hmove : BrokerMoves i b t b' t')
include hmove

/-- What a step of a call does to what numbers mean. -/
theorem BrokerMoves.recorded
    (hrecorded : ∀ ch k, b.subscribedAt ch = some k → k ≤ b.seq ∧ 1 ≤ b.refs ch ∧ b.Recorded ch k)
    (hknows : t.Knows b) (hstage : t.Stage b) {ch : Channel} {k : ℕ}
    (hk : b'.subscribedAt ch = some k) :
    k ≤ b'.seq ∧ 1 ≤ b'.refs ch ∧ b'.Recorded ch k := by
  have hadd : ∀ ch', b.subscribedAt ch = some k → 1 ≤ (b.addRef ch').refs ch := by
    intro ch' hk
    show 1 ≤ update b.refs ch' (b.refs ch' + 1) ch
    by_cases hch : ch = ch'
    · rw [hch, update_self]
      exact Nat.le_add_left 1 _
    · rw [update_of_ne hch]
      exact (hrecorded ch k hk).2.1
  have hdrop : ∀ ch', (b.dropRef ch').subscribedAt ch = some k →
      b.subscribedAt ch = some k ∧ 1 ≤ (b.dropRef ch').refs ch := by
    intro ch' hk
    by_cases hlast : b.refs ch' - 1 = 0
    · have hupdate : update b.subscribedAt ch' none ch = some k := by
        have hdef : (b.dropRef ch').subscribedAt = update b.subscribedAt ch' none :=
          if_pos hlast
        rw [← hdef, hk]
      by_cases hch : ch = ch'
      · rw [hch, update_self] at hupdate
        cases hupdate
      · rw [update_of_ne hch] at hupdate
        refine ⟨hupdate, ?_⟩
        show 1 ≤ update b.refs ch' (b.refs ch' - 1) ch
        rw [update_of_ne hch]
        exact (hrecorded ch k hupdate).2.1
    · have hold : b.subscribedAt ch = some k := by
        have hdef : (b.dropRef ch').subscribedAt = b.subscribedAt := if_neg hlast
        rw [← hdef, hk]
      refine ⟨hold, ?_⟩
      show 1 ≤ update b.refs ch' (b.refs ch' - 1) ch
      by_cases hch : ch = ch'
      · rw [hch, update_self]
        exact Nat.one_le_iff_ne_zero.mpr hlast
      · rw [update_of_ne hch]
        exact (hrecorded ch k hold).2.1
  cases hmove with
  | first ch' | join ch' =>
    obtain ⟨hseq, -, hr⟩ := hrecorded ch k hk
    exact ⟨hseq, hadd ch' hk, hr.listed, hr.covered, hr.acked, hr.pongs, hr.pings⟩
  | subscribed ch' =>
    obtain ⟨hseq, hrefs, hr⟩ := hrecorded ch k hk
    have hsent := hr.send (c := .subscribe ch') not_false
    exact ⟨hseq.trans (Nat.le_succ _), hrefs, Finset.mem_insert_of_mem hsent.listed,
      hsent.covered, hsent.acked, hsent.pongs, hsent.pings⟩
  | notSubscribed ch' listed =>
    obtain ⟨hseq, hrefs, hr⟩ := hrecorded ch k hk
    refine ⟨hseq, hrefs, ?_, hr.covered, hr.acked, hr.pongs, hr.pings⟩
    show ch ∈ if listed then insert ch' b.listed else b.listed
    split
    · exact Finset.mem_insert_of_mem hr.listed
    · exact hr.listed
  | record ch' =>
    have hupdate : update b.subscribedAt ch' (some b.seq) ch = some k := hk
    by_cases hch : ch = ch'
    · subst hch
      rw [update_self] at hupdate
      cases hupdate
      obtain ⟨hlisted, hcovered, hquiet⟩ := hknows
      have hone : b.refs ch = 1 := hstage
      refine ⟨le_rfl, hone.ge, hlisted, hcovered, fun hle => ?_, fun n hn hle => ?_,
        fun p n hp hping hle => ?_⟩
      · exact absurd hquiet.acked (Nat.not_lt.mpr hle)
      · exact absurd (hquiet.pongs n hn) (Nat.not_lt.mpr hle)
      · exact absurd (hquiet.pings p n hp hping) (Nat.not_lt.mpr hle)
    · rw [update_of_ne hch] at hupdate
      obtain ⟨hseq, hrefs, hr⟩ := hrecorded ch k hupdate
      exact ⟨hseq, hrefs, hr.listed, hr.covered, hr.acked, hr.pongs, hr.pings⟩
  | numbered =>
    obtain ⟨hseq, hrefs, hr⟩ := hrecorded ch k hk
    exact ⟨hseq.trans (Nat.le_succ _), hrefs, hr.listed, hr.covered, hr.acked, hr.pongs, hr.pings⟩
  | pinged _ n | pingedInVain _ n =>
    obtain ⟨hseq, hrefs, hr⟩ := hrecorded ch k hk
    have hsent := hr.send (c := .ping n) not_false
    exact ⟨hseq, hrefs, hsent.listed, hsent.covered, hsent.acked, hsent.pongs, hsent.pings⟩
  | releaseLast ch' | release ch' =>
    obtain ⟨hold, hrefs⟩ := hdrop ch' hk
    obtain ⟨hseq, -, hr⟩ := hrecorded ch k hold
    exact ⟨hseq, hrefs, hr.listed, hr.covered, hr.acked, hr.pongs, hr.pings⟩
  | unsubscribe ch' ok =>
    obtain ⟨hseq, hrefs, hr⟩ := hrecorded ch k hk
    -- the last one is gone, so it is another channel
    have hch : ch ≠ ch' := by
      rintro rfl
      have hzero : b.refs ch = 0 := hstage
      rw [hzero] at hrefs
      cases hrefs
    have hlisted : ch ∈ b.listed.erase ch' := Finset.mem_erase.mpr ⟨hch, hr.listed⟩
    cases ok with
    | true =>
      have hsent := hr.send (c := .unsubscribe ch') (Ne.symm hch)
      exact ⟨hseq, hrefs, hlisted, hsent.covered, hsent.acked, hsent.pongs, hsent.pings⟩
    | false => exact ⟨hseq, hrefs, hlisted, hr.covered, hr.acked, hr.pongs, hr.pings⟩
  | _ =>
    obtain ⟨hseq, hrefs, hr⟩ := hrecorded ch k hk
    exact ⟨hseq, hrefs, hr.listed, hr.covered, hr.acked, hr.pongs, hr.pings⟩

/-- The numbers on PINGs and PONGs are those that were given out. -/
theorem BrokerMoves.below (hbelow : b.Below (b.seq + 1))
    (hfresh : ∀ n, t.token = some n → n ≤ b.seq) : b'.Below (b'.seq + 1) := by
  have hping : ∀ n, t.token = some n → (Broker.ping b n).Below (b.seq + 1) := by
    intro n hn
    refine hbelow.send fun m hm => ?_
    obtain rfl := BrokerCommand.ping.inj hm
    exact Nat.lt_succ_of_le (hfresh n hn)
  cases hmove with
  | subscribed ch =>
    have hsent := (hbelow.mono (Nat.le_succ _)).send (c := .subscribe ch)
      fun m hm => BrokerCommand.noConfusion hm
    exact ⟨hsent.acked, hsent.pongs, hsent.pings⟩
  | numbered =>
    have hmore := hbelow.mono (Nat.le_succ (b.seq + 1))
    exact ⟨hmore.acked, hmore.pongs, hmore.pings⟩
  | pinged _ n | pingedInVain _ n =>
    obtain ⟨hacked, hpongs, hpings⟩ := hping n rfl
    exact ⟨hacked, hpongs, hpings⟩
  | unsubscribe ch ok =>
    cases ok with
    | true =>
      obtain ⟨hacked, hpongs, hpings⟩ := hbelow.send (c := .unsubscribe ch)
        fun m hm => BrokerCommand.noConfusion hm
      exact ⟨hacked, hpongs, hpings⟩
    | false => exact ⟨hbelow.acked, hbelow.pongs, hbelow.pings⟩
  | _ => exact ⟨hbelow.acked, hbelow.pongs, hbelow.pings⟩

/-- A call knows what it should at its next place. -/
theorem BrokerMoves.knows (hnext : b.link.next ≤ b.link.sent.length) (hbelow : b.Below (b.seq + 1))
    (hseq : ∀ ch k, b.subscribedAt ch = some k → k ≤ b.seq)
    (hinbox : ∀ n, .acked ∈ b.inbox n → n ≤ b.acked)
    (hjoin : ∀ ch, t = .acquire ch → b.closed = false → b.refs ch ≠ 0 → b.subscribedAt ch ≠ none)
    (hknows : t.Knows b) : t'.Knows b' := by
  cases hmove with
  | join ch _ hopen hmore => exact Option.ne_none_iff_exists'.mp (hjoin ch rfl hopen hmore)
  | subscribed ch =>
    have hsent := hbelow.send (c := .subscribe ch) fun m hm => BrokerCommand.noConfusion hm
    exact ⟨Finset.mem_insert_self _ _, Wire.covered_send rfl hnext, hsent.acked, hsent.pongs,
      hsent.pings⟩
  | record => exact ⟨b.seq, update_self _ _ _⟩
  | confirmed _ hconfirmed =>
    obtain ⟨k, hk⟩ := hknows
    refine ⟨k, ?_, hk⟩
    have hle := of_decide_eq_true hconfirmed
    rwa [hk] at hle
  | unconfirmed =>
    rintro ch' hch'
    cases hch'
    exact hknows
  | sync => exact nofun
  | numbered =>
    intro ch hch
    obtain ⟨k, hk⟩ := hknows ch hch
    exact ⟨k, (hseq ch k hk).trans (Nat.le_succ _), hk⟩
  | pinged => exact hknows
  | woken goal n _ hwoken =>
    cases goal with
    | none => trivial
    | some ch =>
      obtain ⟨k, hn, hk⟩ := hknows ch rfl
      exact ⟨k, hn.trans (hinbox n (hwoken ▸ (.head _))), hk⟩
  | closed goal | forget goal => cases goal <;> trivial
  | _ => trivial

end

end Moves

/-- No call joins a channel whose SUBSCRIBE is not recorded, because sending it
failed and the first call has not given its count back yet. -/
def JoinsSubscribed (s : BrokerState) : BrokerAction → Prop
  | .advance i _ _ =>
    match s.tasks[i]? with
    | some (.acquire ch) =>
      s.broker.closed = false → s.broker.refs ch ≠ 0 → s.broker.subscribedAt ch ≠ none
    | _ => True
  | _ => True

instance (s : BrokerState) (a : BrokerAction) : Decidable (JoinsSubscribed s a) := by
  unfold JoinsSubscribed
  split
  · split <;> infer_instance
  · infer_instance

namespace BrokerState

variable {s s' : BrokerState} {a : BrokerAction}

/-- **A step keeps the order.** -/
theorem Orderly.step (h : s.Orderly) (hs : s.step a = some s') : s'.Orderly := by
  cases brokerHappens_of_step hs with
  | @calls _ t hnew =>
    have hplain : t.inside = false ∧ (∀ ch, t.counts ch = 0) ∧ t.Stage s.broker
        ∧ t.token = none ∧ t.awaits = none := by
      rcases hnew with ⟨ch, rfl⟩ | rfl
      · exact ⟨rfl, fun _ => rfl, trivial, rfl, rfl⟩
      · exact ⟨rfl, fun _ => rfl, trivial, rfl, rfl⟩
    obtain ⟨hout, hcounts, hstage, htoken, hawaits⟩ := hplain
    have hmem : ∀ u ∈ s.tasks ++ [t], u ∈ s.tasks ∨ u = t := fun u hu =>
      (mem_append.mp hu).imp_right mem_singleton.mp
    refine ⟨h.exclusive.append_one hout, fun ch => ?_, fun u hu => ?_, h.wakes,
      fun u hu n hn => ?_, fun i j u v n hi hj hu hv => ?_, fun u hu n hn => ?_⟩
    · show s.broker.refs ch = ((s.tasks ++ [t]).map fun t => t.counts ch).sum
      rw [sum_append_one, hcounts, Nat.add_zero]
      exact h.refs ch
    · rcases hmem u hu with hu | rfl
      · exact h.stage u hu
      · exact hstage
    · rcases hmem u hu with hu | rfl
      · exact h.fresh u hu n hn
      · cases htoken.symm.trans hn
    · have hold : ∀ (k : ℕ) (x : BrokerTask), (s.tasks ++ [t])[k]? = some x → x.token = some n →
          s.tasks[k]? = some x := by
        intro k x hk hx
        by_cases hlt : k < s.tasks.length
        · exact (getElem?_append_left hlt).symm.trans hk
        · rw [getElem?_append_right (Nat.le_of_not_lt hlt)] at hk
          have hxt : x ∈ [t] := mem_of_getElem? hk
          rw [mem_singleton.mp hxt, htoken] at hx
          cases hx
      exact h.own i j u v n (hold i u hi hu) (hold j v hj hv) hu hv
    · rcases hmem u hu with hu | rfl
      · exact h.awaited u hu n hn
      · cases hawaits.symm.trans hn
  | @returns i ch ht =>
    have hset := getElem?_set ht (.release ch)
    refine ⟨h.exclusive.outside ht rfl rfl, fun ch' => ?_, fun u hu => ?_, h.wakes,
      fun u hu n hn => ?_, fun j k u v n hj hk hu hv => ?_, fun u hu n hn => ?_⟩
    · have hsum := sum_set (fun t : BrokerTask => t.counts ch') ht (.release ch)
      have hold := h.refs ch'
      have heq : (BrokerTask.held ch).counts ch' = (BrokerTask.release ch).counts ch' := rfl
      show s.broker.refs ch' = ((s.tasks.set i (.release ch)).map fun t => t.counts ch').sum
      omega
    · rcases mem_set hu with hu | rfl
      · exact h.stage u hu
      · trivial
    · rcases mem_set hu with hu | rfl
      · exact h.fresh u hu n hn
      · exact absurd hn (by simp [BrokerTask.token])
    · have hold : ∀ (m : ℕ) (x : BrokerTask), (s.tasks.set i (.release ch))[m]? = some x →
          x.token = some n → s.tasks[m]? = some x := by
        intro m x hm hx
        rw [hset m] at hm
        by_cases him : i = m
        · rw [if_pos him] at hm
          cases hm
          exact absurd hx (by simp [BrokerTask.token])
        · rwa [if_neg him] at hm
      exact h.own j k u v n (hold j u hj hu) (hold k v hk hv) hu hv
    · rcases mem_set hu with hu | rfl
      · exact h.awaited u hu n hn
      · exact absurd hn (by simp [BrokerTask.awaits])
  | advances ht hmove => exact h.advance ht hmove
  | @receives r rest hreply =>
    have hwakes : ∀ acked, Broker.WakesOnce { s.broker with acked := acked, replies := rest } :=
      fun _ => ⟨h.wakes.waiters, h.wakes.inbox⟩
    cases r with
    | pong =>
      refine h.congr _ rfl rfl rfl (hwakes _).wake fun m hm => ?_
      exact waits_or_woken_wake hm
    | control =>
      refine h.congr _ rfl rfl rfl (hwakes s.broker.acked).wake fun m hm => ?_
      exact waits_or_woken_wake hm
  | closes =>
    unfold Broker.close
    split
    · exact h
    · have hwakes : Broker.WakesOnce { s.broker with closed := true } :=
        ⟨h.wakes.waiters, h.wakes.inbox⟩
      refine h.congr _ rfl rfl rfl hwakes.wake fun m hm => ?_
      exact waits_or_woken_wake hm
  | _ => exact h.congr _ rfl rfl rfl ⟨h.wakes.waiters, h.wakes.inbox⟩ fun _ hn => hn

/-- Where the broker's record of subscriptions is the same, and means what it
meant, the answers are worth what they were. -/
theorem Truthful.congr (h : s.Truthful) (b : Broker) (hnext : b.link.next ≤ b.link.sent.length)
    (hbelow : ∀ n, s.broker.Below n → b.Below n) (hseq : b.seq = s.broker.seq)
    (hsubscribed : b.subscribedAt = s.broker.subscribedAt) (hrefs : b.refs = s.broker.refs)
    (hlisted : b.listed = s.broker.listed)
    (hcovers : ∀ ch ∈ s.broker.listed, s.broker.Covers ch s.broker.link.sent.length →
      b.Covers ch b.link.sent.length)
    (hrecorded : ∀ ch k, s.broker.Recorded ch k → b.Recorded ch k)
    (hacked : s.broker.acked ≤ b.acked) (hinbox : ∀ n, .acked ∈ b.inbox n → n ≤ b.acked) :
    Truthful { s with broker := b } := by
  refine ⟨hnext, ?_, fun ch k hk => ?_, fun t ht => ?_, hinbox⟩
  · show b.Below (b.seq + 1)
    rw [hseq]
    exact hbelow _ h.below
  · show k ≤ b.seq ∧ 1 ≤ b.refs ch ∧ b.Recorded ch k
    obtain ⟨hkseq, hkrefs, hr⟩ := h.recorded ch k (hsubscribed ▸ hk)
    rw [hseq, hrefs]
    exact ⟨hkseq, hkrefs, hrecorded ch k hr⟩
  · refine (h.knows t ht).congr (fun ch _ => by rw [hsubscribed]) hacked fun ch hch => ?_
    obtain ⟨hmem, hcovered, hquiet⟩ : (BrokerTask.record ch).Knows s.broker := hch ▸ h.knows t ht
    exact ⟨hlisted ▸ hmem, hcovers ch hmem hcovered, hseq ▸ hbelow _ hquiet⟩

/-- A call takes a step. -/
theorem Truthful.advance (h : s.Truthful) (ho : s.Orderly) {i : ℕ} {t t' : BrokerTask}
    {b : Broker} (ht : s.tasks[i]? = some t) (hmove : BrokerMoves i s.broker t b t')
    (hjoin : ∀ ch, t = .acquire ch → s.broker.closed = false → s.broker.refs ch ≠ 0 →
      s.broker.subscribedAt ch ≠ none) : Truthful ⟨b, s.tasks.set i t'⟩ := by
  have hmem := mem_of_getElem? ht
  refine ⟨?_, ?_, ?_, ?_, ?_⟩
  · have hsend : ∀ c, (s.broker.link.send c).next ≤ (s.broker.link.send c).sent.length := by
      intro c
      show s.broker.link.next ≤ (s.broker.link.sent ++ [c]).length
      rw [length_append]
      exact h.next_le.trans (Nat.le_add_right _ _)
    cases hmove with
    | subscribed | pinged | pingedInVain => exact hsend _
    | unsubscribe _ ok =>
      cases ok with
      | true => exact hsend _
      | false => exact h.next_le
    | _ => exact h.next_le
  · exact hmove.below h.below (ho.fresh t hmem)
  · exact fun ch k hk => hmove.recorded h.recorded (h.knows t hmem) (ho.stage t hmem) hk
  · intro u hu
    obtain ⟨j, hj⟩ := mem_iff_getElem?.mp hu
    rw [getElem?_set ht t' j] at hj
    by_cases hij : i = j
    · rw [if_pos hij] at hj
      cases hj
      exact hmove.knows h.next_le h.below (fun ch k hk => (h.recorded ch k hk).1) h.inbox hjoin
        (h.knows t hmem)
    · rw [if_neg hij] at hj
      -- entries of a channel are only changed by who is the only one to need it
      have halone : ∀ ch, t.counts ch = 1 → s.broker.refs ch = 1 → u.counts ch = 0 := by
        intro ch hone hrefs
        have hle := add_le_sum (g := fun t : BrokerTask => t.counts ch) ht hj hij
        have hsum := ho.refs ch
        omega
      have hself : ∀ ch : Channel, (if ch = ch then 1 else 0) = 1 := fun ch => if_pos rfl
      have hdrop : ∀ ch ch', t = .release ch' → u.counts ch ≠ 0 →
          (s.broker.dropRef ch').subscribedAt ch = s.broker.subscribedAt ch := by
        intro ch ch' hrelease hcounts
        by_cases hlast : s.broker.refs ch' - 1 = 0
        · have hdef : (s.broker.dropRef ch').subscribedAt
              = update s.broker.subscribedAt ch' none := if_pos hlast
          rw [hdef]
          refine update_of_ne ?_ _ _
          rintro rfl
          have hone : t.counts ch = 1 := by rw [hrelease]; exact hself ch
          have hle := le_sum (g := fun t : BrokerTask => t.counts ch) ht
          have hsum := ho.refs ch
          exact hcounts (halone ch hone (by omega))
        · exact congrFun (if_neg hlast) ch
      refine (h.knows u (mem_of_getElem? hj)).congr (fun ch hcounts => ?_) ?_ fun ch hu => ?_
      · cases hmove with
        | record =>
          refine update_of_ne ?_ _ _
          rintro rfl
          exact hcounts (halone ch (hself ch) (ho.stage _ hmem))
        | releaseLast ch' | release ch' => exact hdrop ch ch' rfl hcounts
        | _ => rfl
      · cases hmove <;> rfl
      · -- the call that subscribes has the lock, so this step only stops a wait
        subst hu
        have hknows : (BrokerTask.record ch).Knows s.broker :=
          h.knows _ (mem_of_getElem? hj)
        have howner := (ho.exclusive.iff hj).mp rfl
        have hout : t.inside = false := Bool.eq_false_iff.mpr fun htin =>
          hij (ho.exclusive.unique ht hj htin rfl)
        obtain ⟨waiters, -, rfl⟩ := hmove.frame hout (by rw [howner]; simp)
        exact ⟨hknows.1, hknows.2.1, hknows.2.2.acked, hknows.2.2.pongs, hknows.2.2.pings⟩
  · cases hmove <;> exact h.inbox

/-- **A step keeps the answers true** that joins no channel without a
SUBSCRIBE. -/
theorem Truthful.step (h : s.Truthful) (ho : s.Orderly) (hP : JoinsSubscribed s a)
    (hs : s.step a = some s') : s'.Truthful := by
  cases brokerHappens_of_step hs with
  | @calls _ t hnew =>
    refine ⟨h.next_le, h.below, h.recorded, fun u hu => ?_, h.inbox⟩
    rcases mem_append.mp hu with hu | hu
    · exact h.knows u hu
    · rw [mem_singleton.mp hu]
      rcases hnew with ⟨ch, rfl⟩ | rfl <;> trivial
  | @returns i ch ht =>
    refine ⟨h.next_le, h.below, h.recorded, fun u hu => ?_, h.inbox⟩
    rcases mem_set hu with hu | rfl
    · exact h.knows u hu
    · trivial
  | advances ht hmove =>
    refine h.advance ho ht hmove fun ch hch => ?_
    subst hch
    have hjoin : JoinsSubscribed s (.advance _ _ _) := hP
    simp only [JoinsSubscribed, ht] at hjoin
    exact hjoin
  | processes hc =>
    refine h.congr _ ?_ (fun n hn => hn.process hc) rfl rfl rfl rfl (fun ch _ hcov => hcov.process)
      (fun ch k hr => hr.process hc) le_rfl h.inbox
    exact (List.getElem?_eq_some_iff.mp hc).1
  | @receives r rest hreply =>
    have hbelow : ∀ n, s.broker.Below n →
        (Broker.receive { s.broker with replies := rest } r).Below n := fun n hn => hn.receive hreply
    have hrecorded : ∀ ch k, s.broker.Recorded ch k →
        (Broker.receive { s.broker with replies := rest } r).Recorded ch k :=
      fun ch k hr => hr.receive hreply
    cases r with
    | pong =>
      refine h.congr _ h.next_le hbelow rfl rfl rfl rfl (fun ch _ hcov => hcov) hrecorded
        (le_max_right _ _) fun m hm => ?_
      rcases mem_inbox_wake hm with hold | ⟨-, hp⟩
      · exact (h.inbox m hold).trans (le_max_right _ _)
      · exact of_decide_eq_true hp
    | control =>
      refine h.congr _ h.next_le hbelow rfl rfl rfl rfl (fun ch _ hcov => hcov) hrecorded le_rfl
        fun m hm => ?_
      rcases mem_inbox_wake hm with hold | ⟨heq, -⟩
      · exact h.inbox m hold
      · exact Wake.noConfusion heq
  | reconnects =>
    refine h.congr _ ?_ (fun n hn => hn.reconnect _) rfl rfl rfl rfl
      (fun ch hmem _ => covers_reconnect hmem) (fun ch k hr => hr.reconnect _) le_rfl h.inbox
    show s.broker.link.sent.length ≤ (s.broker.link.sent ++ [_]).length
    rw [length_append]
    exact Nat.le_add_right _ _
  | closes =>
    unfold Broker.close
    split
    · exact h
    · refine h.congr _ h.next_le (fun n hn => ⟨hn.acked, hn.pongs, hn.pings⟩) rfl rfl rfl rfl
        (fun ch _ hcov => hcov)
        (fun ch k hr => ⟨hr.listed, hr.covered, hr.acked, hr.pongs, hr.pings⟩) le_rfl fun m hm => ?_
      rcases mem_inbox_wake hm with hold | ⟨heq, -⟩
      · exact h.inbox m hold
      · exact Wake.noConfusion heq

end BrokerState

theorem orderly_new : BrokerState.Orderly ⟨Broker.new, []⟩ := by
  refine ⟨fun i => ?_, fun ch => rfl, fun t ht => absurd ht not_mem_nil,
    ⟨fun n hn => absurd hn (Finset.notMem_empty n), fun n => ⟨Nat.zero_le _, fun h => absurd rfl h⟩⟩,
    fun t ht => absurd ht not_mem_nil, fun i j t u n hi => (nomatch hi),
    fun t ht => absurd ht not_mem_nil⟩
  show (none : Option BrokerTask).any _ = true ↔ (none : Option ℕ) = some i
  simp

theorem truthful_new : BrokerState.Truthful ⟨Broker.new, []⟩ := by
  refine ⟨le_rfl, ⟨Nat.zero_lt_one, fun m hm => absurd hm not_mem_nil, fun p m _ hm => ?_⟩,
    fun ch k hk => absurd hk (by simp [Broker.new]), fun t ht => absurd ht not_mem_nil,
    fun n hn => absurd hn not_mem_nil⟩
  exact absurd hm (by simp [Broker.new, Wire.empty])

theorem truthful_of_reachableBy {s : BrokerState} (h : brokerSystem.ReachableBy JoinsSubscribed s) :
    s.Orderly ∧ s.Truthful :=
  h.invariant (I := fun s => s.Orderly ∧ s.Truthful)
    (fun s (hinit : s = _) => hinit ▸ ⟨orderly_new, truthful_new⟩)
    fun _ _ _ hboth hP hs => ⟨hboth.1.step hs, hboth.2.step hboth.1 hP hs⟩

/-- **`Acquire` is truthful.** In every run in which no call joins a channel
whose SUBSCRIBE is not recorded: (i) whom `Acquire` returned to without an error
and who has not released the channel has a SUBSCRIBE that Redis has processed
and after which no UNSUBSCRIBE was sent; (ii) a call that sends an UNSUBSCRIBE
finds nobody who needs the channel; (iii) the count of a channel is the number of
calls that need it; (iv) who waits for a PONG is either to be woken or has been
woken once. -/
theorem acquire_truthful {s : BrokerState} (h : brokerSystem.ReachableBy JoinsSubscribed s) :
    (∀ ch, .held ch ∈ s.tasks → ∃ n ∈ s.broker.link.processed,
      (∃ c, s.broker.link.sent[n]? = some c ∧ c.Subscribes ch) ∧
        ∀ m c, n < m → s.broker.link.sent[m]? = some c → ¬ c.Unsubscribes ch) ∧
    (∀ ch, .unsubscribe ch ∈ s.tasks → ∀ t ∈ s.tasks, t.counts ch = 0) ∧
    (∀ ch, s.broker.refs ch = (s.tasks.map (·.counts ch)).sum) ∧
    (∀ goal n, .waiting goal n ∈ s.tasks → (n ∈ s.broker.waiters ∧ s.broker.inbox n = []) ∨
      (n ∉ s.broker.waiters ∧ ∃ r, s.broker.inbox n = [r])) := by
  obtain ⟨ho, htrue⟩ := truthful_of_reachableBy h
  refine ⟨fun ch hmem => ?_, fun ch hmem t ht => ?_, ho.refs, fun goal n hmem => ?_⟩
  · obtain ⟨k, hk, hsub⟩ := htrue.knows _ hmem
    exact (htrue.recorded ch k hsub).2.2.acked hk
  · obtain ⟨i, hi⟩ := mem_iff_getElem?.mp ht
    have hzero : s.broker.refs ch = 0 := ho.stage _ hmem
    have hle := le_sum (g := fun t : BrokerTask => t.counts ch) hi
    have hsum := ho.refs ch
    omega
  · by_cases hwaits : n ∈ s.broker.waiters
    · exact .inl ⟨hwaits, (ho.wakes.waiters n hwaits).2⟩
    · have hne := (ho.awaited _ hmem n rfl).resolve_left hwaits
      have hone := Nat.le_antisymm (ho.wakes.inbox n).1 (length_pos_iff.mpr hne)
      obtain ⟨r, hr⟩ := length_eq_one_iff.mp hone
      exact .inr ⟨hwaits, r, hr⟩

/-! ## Two calls for one channel -/

/-- Two calls acquire a channel one after the other, the second while the first
waits for its PONG; then the PONGs come. -/
theorem acquired_twice : ∃ s : BrokerState, .held (.room 5) ∈ s.tasks ∧
    s.broker.refs (.room 5) = 2 ∧ ∃ n ∈ s.broker.link.processed,
      (∃ c, s.broker.link.sent[n]? = some c ∧ c.Subscribes (.room 5)) ∧
        ∀ m c, n < m → s.broker.link.sent[m]? = some c → ¬ c.Unsubscribes (.room 5) := by
  have hrun : (brokerSystem.runBy JoinsSubscribed ⟨Broker.new, []⟩
      [.acquire (.room 5), .acquire (.room 5), .advance 0 true false, .advance 0 true false,
        .advance 0 true false, .advance 0 true false, .advance 0 true false, .advance 0 true false,
        .advance 1 true false, .advance 1 true false, .advance 1 true false, .advance 1 true false,
        .process, .process, .process, .receive, .receive, .advance 0 true false,
        .advance 1 true false]).any (fun s =>
      decide (.held (.room 5) ∈ s.tasks ∧ s.broker.refs (.room 5) = 2)) = true := by
    decide +kernel
  obtain ⟨s, hreach, htest⟩ := TransitionSystem.exists_of_runBy hrun rfl
  obtain ⟨hheld, hrefs⟩ := of_decide_eq_true htest
  exact ⟨s, hheld, hrefs, (acquire_truthful hreach).1 (.room 5) hheld⟩

/-- **Acquired without a SUBSCRIBE.** The first call fails to send its SUBSCRIBE
and has not given its count back when the second comes: the second returns without
an error, and nothing was ever sent to Redis. -/
theorem acquired_without_subscribe : ∃ s, brokerSystem.Reachable s ∧ .held (.room 5) ∈ s.tasks ∧
      ∀ (n : ℕ) (c : BrokerCommand), s.broker.link.sent[n]? = some c →
        ¬ c.Subscribes (.room 5) := by
  have hrun : (brokerSystem.run ⟨Broker.new, []⟩
      [.acquire (.room 5), .acquire (.room 5), .advance 0 true false, .advance 0 false false,
        .advance 1 true false, .advance 1 true false]).any (fun s =>
      decide (.held (.room 5) ∈ s.tasks ∧ s.broker.link.sent.length = 0)) = true := by
    decide +kernel
  obtain ⟨s, hreach, htest⟩ := TransitionSystem.exists_of_run hrun rfl
  obtain ⟨hheld, hlength⟩ := of_decide_eq_true htest
  refine ⟨s, hreach, hheld, fun n c hc => ?_⟩
  rw [length_eq_zero_iff.mp hlength] at hc
  exact nomatch hc

end Hibari
