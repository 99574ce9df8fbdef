import Hibari.RoomSummary
import Hibari.TransitionSystem

/-!
# Requests to mark as read

A room is read as far as it is shown: `requestMarkRead` notes the seq that was asked for, and one
loop for each room posts what is noted until nothing is. A request that comes while the loop waits
for the answer of a POST is noted for the next one. An open thread goes through `once` instead: a
call while a POST of the thread is under way waits for that POST.

Every request leads to a POST of its seq or of a larger one that began after it, or with it, and its
promise waits for that POST – in runs where **no POST fails while a request waits** (the `catch` of
the loop forgets the waiting one as well), no request falls behind what its loop has posted, and no
thread is asked to be read further than the POST under way (`no_read_request_lost`).
-/

namespace Hibari

open List

/-! ## A room -/

/-- A POST of a read position: the loop that sent it, and whether it succeeded once it is answered.
-/
structure ReadPost where
  seq : ℕ
  loop : ℕ
  outcome : Option Bool
  deriving DecidableEq

/-- A request that was not turned away: the loop whose promise it was given, and how many POSTs had
begun before it. -/
structure ReadAsk where
  seq : ℕ
  loop : ℕ
  before : ℕ
  deriving DecidableEq

/-- Where a loop waits: for the answer of a POST, or to go on after an answer or a failure. -/
inductive ReadLoop
  | posting (post : ℕ)
  | posted
  | failed
  deriving DecidableEq

/-- **A room that is read**: the room of the store, the entries of `readTargets` and `reading`, and
what was asked and posted so far by how many loops. -/
structure ReadingRoom where
  room : Option Room
  readTargets : Option ℕ
  reading : Option ReadLoop
  loops : ℕ
  posts : List ReadPost
  asks : List ReadAsk
  deriving DecidableEq

/-- What happens to a room that is read. -/
inductive ReadAction
  | update (room : Option Room)
  | request (seq : ℕ)
  | answer (read : Option ReadNotice)
  | resume

namespace ReadingRoom

variable (s : ReadingRoom)

/-- A room that is not there, that is not a member's or that is read that far asks for nothing. -/
def turnsAway (seq : ℕ) : Bool := (s.room.bind (·.lastReadSeq)).all (seq ≤ ·)

/-- The head of the loop: the next POST, or the end. -/
def next : ReadingRoom :=
  match s.readTargets with
  | some target => { s with
      readTargets := none
      posts := s.posts ++ [⟨target, s.loops, none⟩]
      reading := some (.posting s.posts.length) }
  | none => { s with reading := none }

/-- Note the seq for a loop. -/
def note (seq loop : ℕ) : ReadingRoom :=
  { s with
    readTargets := some (max (s.readTargets.getD 0) seq)
    loops := loop
    asks := s.asks ++ [⟨seq, loop, s.posts.length⟩] }

/-- Note the seq, and start the loop of the room unless it runs. -/
def requestMarkRead (seq : ℕ) : ReadingRoom :=
  if s.turnsAway seq then s
  else if s.reading.isSome then s.note seq s.loops
  else (s.note seq (s.loops + 1)).next

/-- The answer of a POST, or its failure. -/
def markRead (read : Option ReadNotice) : Option ReadingRoom :=
  match s.reading with
  | some (.posting i) => some { s with
      room := s.room.map fun room => read.elim room (applyReadToRoom room)
      posts := s.posts.modify i fun p => { p with outcome := some read.isSome }
      reading := some (if read.isSome then .posted else .failed) }
  | _ => none

/-- The loop goes on after its `await`: a failure clears what waits. -/
def resume : Option ReadingRoom :=
  match s.reading with
  | some .posted => some s.next
  | some .failed => some { s with readTargets := none, reading := none }
  | _ => none

def step : ReadAction → Option ReadingRoom
  | .update room => some { s with room }
  | .request seq => some (s.requestMarkRead seq)
  | .answer read => s.markRead read
  | .resume => s.resume

/-- **A step that loses nothing**: no request waits where the loop fails, and none falls behind what
the loop has posted. -/
def Heeds (s : ReadingRoom) : ReadAction → Prop
  | .request seq => s.turnsAway seq = false → s.reading ≠ none → ∀ p ∈ s.posts.getLast?, p.seq ≤ seq
  | .resume => s.reading = some .failed → s.readTargets = none
  | _ => True

/-- **No request is lost**: one POST at a time, each of the largest seq its loop was asked for by
then; and a request whose promise is settled was posted, or a larger seq was, after it was made. -/
structure Sound : Prop where
  single : ∀ (i j : ℕ) (p q : ReadPost), s.posts[i]? = some p → s.posts[j]? = some q →
    p.outcome = none → q.outcome = none → i = j
  largest : ∀ i p, s.posts[i]? = some p →
    (∃ a ∈ s.asks, a.loop = p.loop ∧ a.before ≤ i ∧ a.seq = p.seq) ∧
      ∀ a ∈ s.asks, a.loop = p.loop → a.before ≤ i → a.seq ≤ p.seq
  sent : ∀ a ∈ s.asks, s.reading = none ∨ a.loop < s.loops → ∃ i p, a.before ≤ i ∧
    s.posts[i]? = some p ∧ p.loop = a.loop ∧ a.seq ≤ p.seq ∧ p.outcome ≠ none

end ReadingRoom

/-- The runs of a room that is read. -/
def readRequests : TransitionSystem ReadingRoom ReadAction where
  init s := ∃ room, s = ⟨room, none, none, 0, [], []⟩
  step := ReadingRoom.step

namespace ReadingRoom

variable {s s' : ReadingRoom} {seq : ℕ}

/-- **What every step keeps**: of the loop that runs, what it was asked for is covered by a POST or
by the seq that waits, which is the largest of them. -/
structure Kept (s : ReadingRoom) : Prop where
  flight : ∀ i p, s.posts[i]? = some p → p.outcome = none →
    s.reading = some (.posting i) ∧ p.loop = s.loops
  loops : ∀ p ∈ s.posts, p.loop ≤ s.loops
  asked : ∀ a ∈ s.asks, a.loop ≤ s.loops ∧ a.before ≤ s.posts.length
  waits : ∀ t, s.readTargets = some t → (∃ a ∈ s.asks, a.loop = s.loops ∧ a.seq = t) ∧
    ∀ a ∈ s.asks, a.loop = s.loops → a.seq ≤ t
  covered : ∀ a ∈ s.asks, (∃ i p, a.before ≤ i ∧ s.posts[i]? = some p ∧ p.loop = a.loop ∧
    a.seq ≤ p.seq) ∨ a.loop = s.loops ∧ ∃ t, s.readTargets = some t ∧ a.seq ≤ t
  largest : ∀ i p, s.posts[i]? = some p →
    (∃ a ∈ s.asks, a.loop = p.loop ∧ a.before ≤ i ∧ a.seq = p.seq) ∧
      ∀ a ∈ s.asks, a.loop = p.loop → a.before ≤ i → a.seq ≤ p.seq

/-- A room at rest waits for nothing, and a loop has posted before it goes on. -/
structure Loops (s : ReadingRoom) : Prop where
  rest : s.reading = none → s.readTargets = none
  begun : s.reading ≠ none → ∃ p ∈ s.posts.getLast?, p.loop = s.loops

/-- The next POST of a loop, or its end. -/
theorem Kept.next (h : s.Kept) (hreading : ∀ i, s.reading ≠ some (.posting i)) :
    s.next.Kept ∧ s.next.Loops := by
  unfold ReadingRoom.next
  split
  · next target htarget =>
    obtain ⟨⟨a, ha, hloop, hseq⟩, hmax⟩ := h.waits target htarget
    have hold {i p} (hp : s.posts[i]? = some p) :
        (s.posts ++ [⟨target, s.loops, none⟩])[i]? = some p :=
      getElem?_append_left (List.getElem?_eq_some_iff.mp hp).1 ▸ hp
    have hnew {i p} (hp : (s.posts ++ [(⟨target, s.loops, none⟩ : ReadPost)])[i]? = some p) :
        s.posts[i]? = some p ∨ i = s.posts.length ∧ p = ⟨target, s.loops, none⟩ := by
      rw [getElem?_append] at hp
      split at hp
      · exact .inl hp
      · have hi := (List.getElem?_eq_some_iff.mp hp).1
        have hlen : i = s.posts.length := by
          rw [length_singleton] at hi
          omega
        subst hlen
        rw [Nat.sub_self] at hp
        exact .inr ⟨rfl, (Option.some.inj hp).symm⟩
    refine ⟨⟨fun i p hp hnone => ?_, fun p hp => ?_, fun b hb => ?_, nofun, fun b hb => ?_,
      fun i p hp => ?_⟩, nofun, fun _ => ⟨_, getLast?_concat, rfl⟩⟩
    · obtain hp | ⟨rfl, hpnew⟩ := hnew hp
      · exact absurd (h.flight i p hp hnone).1 (hreading i)
      · cases hpnew
        exact ⟨rfl, rfl⟩
    · obtain hp | hp := mem_append.mp hp
      · exact h.loops p hp
      · rw [mem_singleton.mp hp]
    · refine ⟨(h.asked b hb).1, (h.asked b hb).2.trans ?_⟩
      rw [length_append]
      exact Nat.le_add_right ..
    · obtain ⟨i, p, hi, hp, hrest⟩ | ⟨hloop, t, ht, hle⟩ := h.covered b hb
      · exact .inl ⟨i, p, hi, hold hp, hrest⟩
      · cases htarget.symm.trans ht
        exact .inl ⟨s.posts.length, _, (h.asked b hb).2, getElem?_concat_length, hloop.symm, hle⟩
    · obtain hp | ⟨rfl, rfl⟩ := hnew hp
      · exact h.largest i p hp
      · exact ⟨⟨a, ha, hloop, (h.asked a ha).2, hseq⟩, fun b hb hloop _ => hmax b hb hloop⟩
  · next hnone =>
    refine ⟨{ h with flight := fun i p hp hout => absurd (h.flight i p hp hout).1 (hreading i) },
      fun _ => hnone, fun hne => absurd rfl hne⟩

/-- A request notes its seq for the loop that runs, or for the one it starts. -/
theorem Kept.note {loop : ℕ} (h : s.Kept) (hl : s.Loops)
    (hloop : s.reading ≠ none ∧ loop = s.loops ∨ s.reading = none ∧ loop = s.loops + 1)
    (hbehind : s.reading ≠ none → ∀ p ∈ s.posts.getLast?, p.seq ≤ seq) :
    (s.note seq loop).Kept := by
  have hle : s.loops ≤ loop := by omega
  have hruns {t} (ht : s.readTargets = some t) : loop = s.loops := by
    obtain ⟨-, hloop⟩ | ⟨hrest, -⟩ := hloop
    · exact hloop
    · exact nomatch (hl.rest hrest).symm.trans ht
  -- what the loop was asked for before stays below what now waits
  have hmax : ∀ a ∈ s.asks, a.loop = loop → a.seq ≤ max (s.readTargets.getD 0) seq := by
    intro a ha haloop
    obtain ⟨hreading, rfl⟩ | ⟨-, rfl⟩ := hloop
    · obtain ⟨i, p, hi, hp, -⟩ | ⟨-, t, ht, hseq⟩ := h.covered a ha
      · obtain ⟨q, hq, hqloop⟩ := hl.begun hreading
        have hlast := (h.largest _ q (getLast?_eq_getElem? ▸ hq)).2 a ha (haloop.trans hqloop.symm)
          (hi.trans (Nat.le_sub_one_of_lt (List.getElem?_eq_some_iff.mp hp).1))
        exact hlast.trans ((hbehind hreading q hq).trans (le_max_right ..))
      · rw [ht]
        exact hseq.trans (le_max_left ..)
    · exact absurd (haloop ▸ (h.asked a ha).1) (Nat.not_succ_le_self _)
  refine ⟨fun i p hp hout => ?_, fun p hp => (h.loops p hp).trans hle, fun a ha => ?_,
    fun t ht => ?_, fun a ha => ?_, fun i p hp => ⟨?_, fun a ha => ?_⟩⟩
  · obtain ⟨hreading, hploop⟩ := h.flight i p hp hout
    obtain ⟨-, rfl⟩ | ⟨hrest, -⟩ := hloop
    · exact ⟨hreading, hploop⟩
    · exact nomatch hrest.symm.trans hreading
  · obtain ha | ha := mem_append.mp ha
    · exact ⟨(h.asked a ha).1.trans hle, (h.asked a ha).2⟩
    · cases mem_singleton.mp ha
      exact ⟨le_rfl, le_rfl⟩
  · cases ht
    refine ⟨?_, fun a ha haloop => ?_⟩
    · obtain hseq | hseq := le_or_gt (s.readTargets.getD 0) seq
      · exact ⟨_, mem_append_right _ (.head _), rfl, (max_eq_right hseq).symm⟩
      · obtain ⟨t, ht⟩ : ∃ t, s.readTargets = some t :=
          Option.ne_none_iff_exists'.mp fun hnone => by rw [hnone] at hseq; cases hseq
        obtain ⟨⟨a, ha, haloop, haseq⟩, -⟩ := h.waits t ht
        refine ⟨a, mem_append_left _ ha, haloop.trans (hruns ht).symm, ?_⟩
        rw [ht] at hseq ⊢
        exact haseq.trans (max_eq_left hseq.le).symm
    · obtain ha | ha := mem_append.mp ha
      · exact hmax a ha haloop
      · cases mem_singleton.mp ha
        exact le_max_right ..
  · obtain ha | ha := mem_append.mp ha
    · refine (h.covered a ha).imp id fun ⟨haloop, t, ht, hseq⟩ =>
        ⟨haloop.trans (hruns ht).symm, _, rfl, hseq.trans ?_⟩
      rw [ht]
      exact le_max_left ..
    · cases mem_singleton.mp ha
      exact .inr ⟨rfl, _, rfl, le_max_right ..⟩
  · obtain ⟨a, ha, hrest⟩ := (h.largest i p hp).1
    exact ⟨a, mem_append_left _ ha, hrest⟩
  · obtain ha | ha := mem_append.mp ha
    · exact (h.largest i p hp).2 a ha
    · cases mem_singleton.mp ha
      exact fun _ hi => absurd (List.getElem?_eq_some_iff.mp hp).1 (not_lt.mpr hi)

/-- The answer of a POST settles it. -/
theorem Kept.markRead {read : Option ReadNotice} (h : s.Kept) (hl : s.Loops)
    (hs : s.markRead read = some s') : s'.Kept ∧ s'.Loops := by
  unfold ReadingRoom.markRead at hs
  split at hs
  · next i hreading =>
    cases hs
    have hpost {j} {p : ReadPost} (hp : (s.posts.modify i fun p =>
        { p with outcome := some read.isSome })[j]? = some p) :
        ∃ q, s.posts[j]? = some q ∧ q.seq = p.seq ∧ q.loop = p.loop ∧
          (p.outcome = none → q.outcome = none ∧ i ≠ j) := by
      rw [getElem?_modify] at hp
      obtain ⟨q, hq, rfl⟩ := Option.map_eq_some_iff.mp hp
      refine ⟨q, hq, ?_⟩
      split
      · exact ⟨rfl, rfl, nofun⟩
      · next hne => exact ⟨rfl, rfl, fun hout => ⟨hout, hne⟩⟩
    refine ⟨⟨fun j p hp hout => ?_, fun p hp => ?_, fun a ha => ?_, h.waits, fun a ha => ?_,
      fun j p hp => ?_⟩, nofun, fun _ => ?_⟩
    · obtain ⟨q, hq, -, -, hnone⟩ := hpost hp
      cases hreading.symm.trans (h.flight j q hq (hnone hout).1).1
      exact absurd rfl (hnone hout).2
    · obtain ⟨j, hp⟩ := mem_iff_getElem?.mp hp
      obtain ⟨q, hq, -, hqloop, -⟩ := hpost hp
      exact hqloop ▸ h.loops q (mem_of_getElem? hq)
    · rw [length_modify]
      exact h.asked a ha
    · refine (h.covered a ha).imp (fun ⟨j, p, hj, hp, hrest⟩ => ?_) id
      refine ⟨j, _, hj, (getElem?_modify ..).trans (congrArg _ hp), ?_⟩
      dsimp only
      split <;> exact hrest
    · obtain ⟨q, hq, hseq, hqloop, -⟩ := hpost hp
      rw [← hseq, ← hqloop]
      exact h.largest j q hq
    · obtain ⟨q, hq, hqloop⟩ := hl.begun (hreading ▸ nofun)
      rw [getLast?_eq_getElem?] at hq ⊢
      rw [length_modify, getElem?_modify, hq]
      refine ⟨_, rfl, ?_⟩
      split <;> exact hqloop
  · cases hs

theorem kept_step {a : ReadAction} (h : s.Kept ∧ s.Loops) (hheeds : s.Heeds a)
    (hs : s.step a = some s') : s'.Kept ∧ s'.Loops := by
  obtain ⟨h, hl⟩ := h
  cases a with
  | update room =>
    cases hs
    exact ⟨{ h with }, { hl with }⟩
  | request seq =>
    cases hs
    unfold requestMarkRead
    split
    · exact ⟨h, hl⟩
    · next haway =>
      have hbehind := hheeds (eq_false_of_ne_true haway)
      split
      · next hruns =>
        have hreading := Option.isSome_iff_ne_none.mp hruns
        exact ⟨h.note hl (.inl ⟨hreading, rfl⟩) hbehind, fun hnone => absurd hnone hreading,
          fun _ => hl.begun hreading⟩
      · next hrest =>
        have hnone := Option.not_isSome_iff_eq_none.mp hrest
        exact (h.note hl (.inr ⟨hnone, rfl⟩) hbehind).next fun i hi => nomatch hnone.symm.trans hi
  | answer read => exact h.markRead hl hs
  | resume =>
    change s.resume = some s' at hs
    unfold ReadingRoom.resume at hs
    split at hs
    · next hposted =>
      cases hs
      exact h.next fun i hi => nomatch hposted.symm.trans hi
    · next hfailed =>
      cases hs
      have hnone := hheeds hfailed
      rw [← hnone]
      exact ⟨{ h with flight := fun i p hp hout =>
          nomatch hfailed.symm.trans (h.flight i p hp hout).1 },
        fun _ => hnone, fun hne => absurd rfl hne⟩
    · cases hs

theorem sound_of_reachableBy (h : readRequests.ReachableBy Heeds s) : s.Sound := by
  have hstart : ∀ s, readRequests.init s → s.Kept ∧ s.Loops := by
    rintro _ ⟨room, rfl⟩
    exact ⟨⟨nofun, nofun, nofun, nofun, nofun, nofun⟩, fun _ => rfl, fun hne => absurd rfl hne⟩
  obtain ⟨hkept, hloops⟩ := h.invariant hstart fun _ _ _ => kept_step
  refine ⟨fun i j p q hp hq hi hj => ?_, hkept.largest, fun a ha hover => ?_⟩
  · cases (hkept.flight i p hp hi).1.symm.trans (hkept.flight j q hq hj).1
    rfl
  · obtain ⟨i, p, hi, hp, hloop, hseq⟩ | ⟨hloop, t, ht, -⟩ := hkept.covered a ha
    · refine ⟨i, p, hi, hp, hloop, hseq, fun hout => ?_⟩
      obtain ⟨hreading, hp⟩ := hkept.flight i p hp hout
      obtain hnone | hlt := hover
      · exact nomatch hnone.symm.trans hreading
      · exact absurd (hloop.symm.trans hp) hlt.ne
    · obtain hnone | hlt := hover
      · exact nomatch (hloops.rest hnone).symm.trans ht
      · exact absurd hloop hlt.ne

end ReadingRoom

/-! ## A thread -/

/-- An open thread: whether it is loaded, the seq and the thread seq of its last reply, and how far
a participant has read it. -/
structure OpenThread where
  ready : Bool
  newest : Option (ℕ × ℕ)
  lastReadThreadSeq : Option ℕ
  deriving DecidableEq

/-- **A thread that is read**: the entry of `once` – a POST that waits, or one that is answered and
still shared – and what was asked for and posted. -/
structure ReadingThread where
  thread : Option OpenThread
  inflight : Option Bool
  posts : List ℕ
  asks : List ℕ
  deriving DecidableEq

/-- What happens to a thread that is read. -/
inductive ThreadReadAction
  | update (thread : Option OpenThread)
  | markThreadRead
  | answer (read : Option ℕ)
  | clear

namespace ReadingThread

variable (s : ReadingThread)

/-- The last reply, if it is shown to a participant who has not read it. -/
def unread : Option ℕ := do
  let thread ← s.thread
  let (seq, threadSeq) ← thread.newest
  let read ← thread.lastReadThreadSeq
  if thread.ready && read < threadSeq then some seq else none

def markThreadRead : ReadingThread :=
  match s.unread, s.inflight with
  | none, _ => s
  | some seq, some _ => { s with asks := s.asks ++ [seq] }
  | some seq, none => { s with
      inflight := some false, posts := s.posts ++ [seq], asks := s.asks ++ [seq] }

def step : ThreadReadAction → Option ReadingThread
  | .update thread => some { s with thread }
  | .markThreadRead => some s.markThreadRead
  | .answer read =>
    if s.inflight = some false then some { s with
      inflight := some true
      thread := s.thread.map fun t => { t with
        lastReadThreadSeq := t.lastReadThreadSeq.map fun seq => max seq (read.getD seq) } }
    else none
  | .clear => if s.inflight = some true then some { s with inflight := none } else none

/-- **A call that loses nothing**: none that shares a POST asks for a later reply than it posts. -/
def Heeds (s : ReadingThread) : ThreadReadAction → Prop
  | .markThreadRead => s.inflight ≠ none → ∀ seq ∈ s.unread, ∀ p ∈ s.posts.getLast?, seq ≤ p
  | _ => True

/-- Each reply that was to be read is covered by a POST. -/
def Sound : Prop := ∀ seq ∈ s.asks, ∃ p ∈ s.posts, seq ≤ p

end ReadingThread

/-- The runs of a thread that is read. -/
def threadReads : TransitionSystem ReadingThread ThreadReadAction where
  init s := ∃ thread, s = ⟨thread, none, [], []⟩
  step := ReadingThread.step

theorem ReadingThread.sound_of_reachableBy {s : ReadingThread}
    (h : threadReads.ReachableBy Heeds s) : s.Sound := by
  have hstart : ∀ s, threadReads.init s → s.Sound ∧ (s.inflight ≠ none → s.posts ≠ []) := by
    rintro _ ⟨thread, rfl⟩
    exact ⟨nofun, fun hne => absurd rfl hne⟩
  refine (h.invariant hstart fun s a s' ⟨hsound, hbegun⟩ hheeds hs => ?_).1
  cases a with
  | update thread => cases hs; exact ⟨hsound, hbegun⟩
  | markThreadRead =>
    cases hs
    unfold markThreadRead
    split
    · exact ⟨hsound, hbegun⟩
    · next seq _ hunread hinflight =>
      have hne : s.inflight ≠ none := hinflight ▸ nofun
      refine ⟨forall_mem_append.mpr ⟨hsound, forall_mem_singleton.mpr ?_⟩, hbegun⟩
      exact ⟨_, getLast_mem (hbegun hne), hheeds hne seq hunread _ (getLast?_eq_some_getLast _)⟩
    · refine ⟨forall_mem_append.mpr ⟨fun seq hseq => ?_, forall_mem_singleton.mpr ?_⟩,
        fun _ => append_ne_nil_of_right_ne_nil _ (cons_ne_nil _ _)⟩
      · obtain ⟨p, hp, hle⟩ := hsound seq hseq
        exact ⟨p, mem_append_left _ hp, hle⟩
      · exact ⟨_, mem_append_right _ (.head _), le_rfl⟩
  | answer read =>
    obtain ⟨hinflight, hs⟩ := Option.ite_none_right_eq_some.mp hs
    cases hs
    exact ⟨hsound, fun _ => hbegun (hinflight ▸ nofun)⟩
  | clear =>
    obtain ⟨-, hs⟩ := Option.ite_none_right_eq_some.mp hs
    cases hs
    exact ⟨hsound, fun hne => absurd rfl hne⟩

/-! ## No request is lost -/

/-- **No read request is lost** where no request waits for a POST that fails, none falls behind what
its loop has posted, and no thread is to be read further than the POST that is shared. -/
theorem no_read_request_lost (s : ReadingRoom) (t : ReadingThread) :
    (readRequests.ReachableBy ReadingRoom.Heeds s → s.Sound) ∧
      (threadReads.ReachableBy ReadingThread.Heeds t → t.Sound) :=
  ⟨ReadingRoom.sound_of_reachableBy, ReadingThread.sound_of_reachableBy⟩

/-- Seq 6 is asked for while seq 5 is posted, and the POST fails; and a reply with seq 6 is to be
read while seq 5 is posted. -/
theorem newer_read_lost :
    (∃ s, readRequests.Reachable s ∧ s.reading = none ∧
      ∃ a ∈ s.asks, ∀ p ∈ s.posts, p.seq < a.seq) ∧
    ∃ s, threadReads.Reachable s ∧ s.inflight = none ∧
      ∃ seq ∈ s.asks, ∀ p ∈ s.posts, p < seq := by
  let room : Room := ⟨6, 6, none, none, some 0, some 0, 6, 0⟩
  have hroom : (readRequests.run ⟨some room, none, none, 0, [], []⟩
      [.request 5, .request 6, .answer none, .resume]).any (fun s =>
        s.reading = none ∧ ∃ a ∈ s.asks, ∀ p ∈ s.posts, p.seq < a.seq) = true := by decide
  have hthread : (threadReads.run ⟨some ⟨true, some (5, 1), some 0⟩, none, [], []⟩
      [.markThreadRead, .update (some ⟨true, some (6, 2), some 0⟩), .markThreadRead,
        .answer (some 1), .clear]).any (fun s =>
        s.inflight = none ∧ ∃ seq ∈ s.asks, ∀ p ∈ s.posts, p < seq) = true := by decide
  obtain ⟨s, hs, hlost⟩ := TransitionSystem.exists_of_run hroom ⟨_, rfl⟩
  obtain ⟨t, ht, hlate⟩ := TransitionSystem.exists_of_run hthread ⟨_, rfl⟩
  exact ⟨⟨s, hs, of_decide_eq_true hlost⟩, t, ht, of_decide_eq_true hlate⟩

end Hibari
