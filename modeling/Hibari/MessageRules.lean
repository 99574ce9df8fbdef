import Hibari.Message
import Hibari.KeyedList

/-!
# Merging messages

The rules a client applies to the messages of one room (`rules/messages.ts`
and the part of `rules/reactions.ts` it uses): what a page or an event does
to the messages already held, which of them fall into the loaded window, and
how far the cursor may be moved.

Three facts carry everything the timeline is used for. A merge keeps the
newer of two versions, so nothing held is replaced by something older
(`exists_newer_of_mem_current`, `exists_newer_of_mem_incoming`). It invents
nothing: each message it returns is a version that was there or came in
(`forall_stamp_mergeMessages`). And the cursor only moves over numbers that
a held message carries (`exists_of_le_advanceCursor`).
-/

namespace Hibari

open List KeyedList

variable {current incoming messages : List Message} {m : Message} {Q : Stamp → Prop}
    {window : Window} {k seq : ℕ}

/-! ## The viewer's own fields -/

/-- Carry the viewer's own reactions over to an update that does not say
whether the viewer reacted. -/
def keepMyReactions (previous incoming : List MessageReaction) : List MessageReaction :=
  if incoming.all (fun r => r.me.isSome) then incoming
  else incoming.map (fun r =>
    if r.me.isNone then
      { r with me := some (((previous.find? (fun p => p.emoji = r.emoji)).bind (·.me)).getD false) }
    else r)

/-- What becomes of a held message when a message with its id comes in: the
held one stays if it is newer, and otherwise the incoming one takes its
place, with the viewer's fields carried over where it has none. -/
def absorb (existing message : Message) : Message :=
  if existing.changeSeq > message.changeSeq then existing
  else
    { message with
      reactions := keepMyReactions existing.reactions message.reactions
      saved := if message.saved.isNone then existing.saved else message.saved }

/-! ## Merging -/

/-- Order messages by their position in the room. -/
def sortBySeq (messages : List Message) : List Message :=
  messages.insertionSort (fun a b => a.seq ≤ b.seq)

/-- Merge incoming messages into the held ones: one message per id, the
newer version, in the order of the room. -/
def mergeMessages (current incoming : List Message) : List Message :=
  let byId := current.foldl (KeyedList.upsert Message.id (fun _ m => m)) []
  sortBySeq (incoming.foldl (KeyedList.upsert Message.id absorb) byId)

/-- Which sides of the loaded window have more to load. -/
structure Window where
  hasOlder : Bool
  hasNewer : Bool
  deriving DecidableEq

/-- Whether a position lies in the loaded window: not before the first held
message where there is more on the older side, not after the last one where
there is more on the newer side. -/
def Window.admits (window : Window) (current : List Message) (seq : ℕ) : Bool :=
  (!window.hasOlder || current.head?.all (fun oldest => decide (oldest.seq ≤ seq))) &&
    (!window.hasNewer || current.getLast?.all (fun newest => decide (seq ≤ newest.seq)))

/-- Merge only what falls into the loaded window. -/
def mergeIntoWindow (current : List Message) (window : Window)
    (incoming : List Message) : List Message :=
  let inWindow := incoming.filter (fun m => window.admits current m.seq)
  if inWindow.isEmpty then current else mergeMessages current inWindow

/-- Move the cursor over the numbers that held messages carry, one after the
other. The count bounds the loop: it stops at the first missing number, and
there are no more numbers than messages. -/
def advanceFrom (changes : List ℕ) : ℕ → ℕ → ℕ
  | 0, next => next
  | fuel + 1, next =>
    if next + 1 ∈ changes then advanceFrom changes fuel (next + 1) else next

/-- The cursor after taking in the consecutive changes at hand. -/
def advanceCursor (cursor : ℕ) (messages : List Message) : ℕ :=
  advanceFrom (messages.map Message.changeSeq) messages.length cursor

/-- The position of the newest held message that shows in the channel. -/
def newestChannelSeq (messages : List Message) : Option ℕ :=
  (messages.reverse.find? (fun m => inChannel m)).map (·.seq)

/-! ## What a merge does -/

theorem absorb_id {existing message : Message} (h : existing.id = message.id) :
    (absorb existing message).id = message.id := by
  unfold absorb
  split
  · exact h
  · rfl

theorem absorb_stamp (existing message : Message) : (absorb existing message).stamp = existing.stamp
      ∨ (absorb existing message).stamp = message.stamp := by
  unfold absorb
  split
  · exact .inl rfl
  · exact .inr rfl

theorem le_absorb_existing (existing message : Message) :
    existing.changeSeq ≤ (absorb existing message).changeSeq := by
  unfold absorb
  split
  · exact le_rfl
  · next h => exact not_lt.mp h

theorem le_absorb_message (existing message : Message) :
    message.changeSeq ≤ (absorb existing message).changeSeq := by
  unfold absorb
  split
  · next h => exact le_of_lt h
  · exact le_rfl

@[simp] theorem mem_sortBySeq : m ∈ sortBySeq messages ↔ m ∈ messages :=
  mem_insertionSort _

theorem pairwise_sortBySeq (messages : List Message) :
    (sortBySeq messages).Pairwise (fun a b => a.seq ≤ b.seq) := by
  have : Std.Total (fun a b : Message => a.seq ≤ b.seq) := ⟨fun a b => le_total a.seq b.seq⟩
  have : IsTrans Message (fun a b => a.seq ≤ b.seq) := ⟨fun _ _ _ => le_trans⟩
  exact pairwise_insertionSort _ messages

/-- **A tidy list of messages**: one message per id, in the order of the
room. -/
structure Tidy (messages : List Message) : Prop where
  distinct : KeyedList.Distinct Message.id messages
  sorted : messages.Pairwise (fun a b => a.seq ≤ b.seq)

theorem tidy_nil : Tidy [] := ⟨distinct_nil, List.Pairwise.nil⟩

theorem tidy_mergeMessages (current incoming : List Message) :
    Tidy (mergeMessages current incoming) where
  distinct := by
    refine KeyedList.Distinct.perm (perm_insertionSort _ _).symm ?_
    exact (distinct_nil.foldl_upsert (fun _ _ _ => rfl) current).foldl_upsert
      (fun _ _ => absorb_id) incoming
  sorted := pairwise_sortBySeq _

theorem mergeMessages_of_tidy (h : Tidy current) (incoming : List Message) :
    mergeMessages current incoming
      = sortBySeq (incoming.foldl (KeyedList.upsert Message.id absorb) current) := by
  unfold mergeMessages
  rw [foldl_upsert_nil h.distinct]

theorem mergeMessages_nil_of_tidy (h : Tidy incoming) : mergeMessages [] incoming = incoming := by
  rw [mergeMessages_of_tidy tidy_nil, foldl_upsert_nil h.distinct]
  exact List.Pairwise.insertionSort_eq h.sorted

/-- **A merge invents nothing**: every version it holds was held or came
in. -/
theorem forall_stamp_mergeMessages
    (hcur : ∀ m ∈ current, Q m.stamp) (hinc : ∀ m ∈ incoming, Q m.stamp) :
    ∀ m ∈ mergeMessages current incoming, Q m.stamp := by
  intro m hm
  refine forall_foldl_upsert (Q := fun m : Message => Q m.stamp) ?_ ?_ hinc m (mem_sortBySeq.mp hm)
  · intro x a _ hx ha
    rcases absorb_stamp x a with h | h
    · exact h ▸ hx
    · exact h ▸ ha
  · exact forall_foldl_upsert (Q := fun m : Message => Q m.stamp) (fun _ _ _ _ ha => ha)
      (fun _ h => nomatch h) hcur

/-- **A merge loses nothing held**: there is a version at least as new. -/
theorem exists_newer_of_mem_current (h : Tidy current)
    (incoming : List Message) (hm : m ∈ current) :
    ∃ m' ∈ mergeMessages current incoming, m'.id = m.id ∧ m.changeSeq ≤ m'.changeSeq := by
  rw [mergeMessages_of_tidy h]
  obtain ⟨y, hy, hid, hle⟩ := exists_rank_le_of_mem_current
    Message.id Message.changeSeq (fun _ _ => absorb_id)
    (fun x a _ => le_absorb_existing x a) incoming hm
  exact ⟨y, mem_sortBySeq.mpr hy, hid, hle⟩

/-- **A merge takes in everything that came**: there is a version at least
as new. -/
theorem exists_newer_of_mem_incoming (current : List Message) (hm : m ∈ incoming) :
    ∃ m' ∈ mergeMessages current incoming, m'.id = m.id ∧ m.changeSeq ≤ m'.changeSeq := by
  obtain ⟨y, hy, hid, hle⟩ := exists_rank_le_of_mem_incoming
    Message.id Message.changeSeq (fun _ _ => absorb_id)
    (fun x a _ => le_absorb_existing x a) (fun x a _ => le_absorb_message x a) hm
  exact ⟨y, mem_sortBySeq.mpr hy, hid, hle⟩

/-! ## The loaded window -/

/-- The first and last of a tidy list bound the others. -/
theorem Tidy.head_le (h : Tidy messages) {o : Message}
    (ho : messages.head? = some o) (hm : m ∈ messages) : o.seq ≤ m.seq := by
  cases messages with
  | nil => exact nomatch hm
  | cons x =>
    obtain rfl : x = o := by simpa using ho
    rcases mem_cons.mp hm with rfl | hm'
    · exact le_rfl
    · exact (pairwise_cons.mp h.sorted).1 m hm'

theorem Tidy.le_getLast (h : Tidy messages) {n : Message}
    (hn : messages.getLast? = some n) (hm : m ∈ messages) : m.seq ≤ n.seq := by
  obtain ⟨xs, rfl⟩ := getLast?_eq_some_iff.mp hn
  rcases mem_append.mp hm with hm' | hm'
  · exact (pairwise_append.mp h.sorted).2.2 m hm' n (mem_singleton_self n)
  · rw [mem_singleton.mp hm']

theorem Window.admits_iff : window.admits current seq = true ↔
      (window.hasOlder = true → ∀ o, current.head? = some o → o.seq ≤ seq) ∧
      (window.hasNewer = true → ∀ n, current.getLast? = some n → seq ≤ n.seq) := by
  unfold Window.admits
  rcases window with ⟨older, newer⟩
  cases older <;> cases newer <;> cases current.head? <;> cases current.getLast? <;> simp

theorem Tidy.admits (h : Tidy messages) (window : Window) (hm : m ∈ messages) : window.admits messages m.seq = true :=
  Window.admits_iff.mpr ⟨fun _ _ ho => h.head_le ho hm, fun _ _ hn => h.le_getLast hn hm⟩

theorem tidy_mergeIntoWindow (h : Tidy current) (window : Window) (incoming : List Message) :
    Tidy (mergeIntoWindow current window incoming) := by
  simp only [mergeIntoWindow]
  split
  · exact h
  · exact tidy_mergeMessages _ _

/-- A merge into the window holds only what was held or came in, and what
came in lies in the window. -/
theorem forall_stamp_mergeIntoWindow (hcur : ∀ m ∈ current, Q m.stamp)
    (hinc : ∀ m ∈ incoming, window.admits current m.seq = true → Q m.stamp) :
    ∀ m ∈ mergeIntoWindow current window incoming, Q m.stamp := by
  simp only [mergeIntoWindow]
  split
  · exact hcur
  · refine forall_stamp_mergeMessages hcur (fun m hm => ?_)
    obtain ⟨hm, hadm⟩ := mem_filter.mp hm
    exact hinc m hm hadm

theorem exists_newer_mergeIntoWindow_of_mem_current
    (h : Tidy current) (window : Window) (incoming : List Message)
    (hm : m ∈ current) :
    ∃ m' ∈ mergeIntoWindow current window incoming, m'.id = m.id ∧ m.changeSeq ≤ m'.changeSeq := by
  simp only [mergeIntoWindow]
  split
  · exact ⟨m, hm, rfl, le_rfl⟩
  · exact exists_newer_of_mem_current h _ hm

theorem exists_newer_mergeIntoWindow_of_admits (current : List Message) (hm : m ∈ incoming)
    (hadm : window.admits current m.seq = true) :
    ∃ m' ∈ mergeIntoWindow current window incoming, m'.id = m.id ∧ m.changeSeq ≤ m'.changeSeq := by
  have hmem : m ∈ incoming.filter (fun m => window.admits current m.seq) :=
    mem_filter.mpr ⟨hm, hadm⟩
  simp only [mergeIntoWindow]
  split
  · next hnil => rw [List.isEmpty_iff.mp hnil] at hmem; cases hmem
  · exact exists_newer_of_mem_incoming current hmem

/-- **A merge into the window does not widen it**: what comes in lies
between the edges, so the edges stay. -/
theorem admits_of_admits_mergeIntoWindow (h : Tidy current)
    (hadm : window.admits (mergeIntoWindow current window incoming) seq = true) :
    window.admits current seq = true := by
  obtain ⟨hlow, hhigh⟩ := Window.admits_iff.mp hadm
  refine Window.admits_iff.mpr ⟨fun hold o ho => ?_, fun hnew n hn => ?_⟩
  · have hbound : ∀ m ∈ mergeIntoWindow current window incoming, o.seq ≤ m.stamp.place.seq :=
      forall_stamp_mergeIntoWindow (Q := fun st => o.seq ≤ st.place.seq)
        (fun m hm => h.head_le ho hm)
        (fun m _ hm => (Window.admits_iff.mp hm).1 hold o ho)
    obtain ⟨m', hm', -, -⟩ := exists_newer_mergeIntoWindow_of_mem_current h window incoming
      (mem_of_mem_head? ho)
    obtain ⟨o', ho'⟩ : ∃ o', (mergeIntoWindow current window incoming).head? = some o' :=
      Option.isSome_iff_exists.mp (isSome_head?.mpr (ne_nil_of_mem hm'))
    exact (hbound o' (mem_of_mem_head? ho')).trans (hlow hold o' ho')
  · have hbound : ∀ m ∈ mergeIntoWindow current window incoming, m.stamp.place.seq ≤ n.seq :=
      forall_stamp_mergeIntoWindow (Q := fun st => st.place.seq ≤ n.seq)
        (fun m hm => h.le_getLast hn hm)
        (fun m _ hm => (Window.admits_iff.mp hm).2 hnew n hn)
    obtain ⟨m', hm', -, -⟩ := exists_newer_mergeIntoWindow_of_mem_current h window incoming
      (mem_of_getLast? hn)
    obtain ⟨n', hn'⟩ : ∃ n', (mergeIntoWindow current window incoming).getLast? = some n' :=
      Option.isSome_iff_exists.mp (getLast?_isSome.mpr (ne_nil_of_mem hm'))
    exact (hhigh hnew n' hn').trans (hbound n' (mem_of_getLast? hn'))

/-! ## The cursor -/

theorem le_advanceFrom (changes : List ℕ) (fuel next : ℕ) :
    next ≤ advanceFrom changes fuel next := by
  induction fuel generalizing next with
  | zero => exact le_rfl
  | succ _ ih =>
    rw [advanceFrom]
    split
    · exact (Nat.le_succ next).trans (ih (next + 1))
    · exact le_rfl

theorem mem_of_le_advanceFrom {changes : List ℕ} (fuel : ℕ) {next : ℕ} (hlt : next < k)
    (hle : k ≤ advanceFrom changes fuel next) : k ∈ changes := by
  induction fuel generalizing next with
  | zero => exact absurd hle (not_le.mpr hlt)
  | succ _ ih =>
    rw [advanceFrom] at hle
    split at hle
    · next hmem =>
      rcases Nat.lt_or_eq_of_le (Nat.succ_le_of_lt hlt) with h | rfl
      · exact ih h hle
      · exact hmem
    · exact absurd hle (not_le.mpr hlt)

theorem le_advanceCursor (cursor : ℕ) (messages : List Message) :
    cursor ≤ advanceCursor cursor messages := le_advanceFrom _ _ _

/-- **The cursor only moves over numbers that a held message carries.** -/
theorem exists_of_le_advanceCursor {cursor : ℕ}
    (hlt : cursor < k) (hle : k ≤ advanceCursor cursor messages) :
    ∃ m ∈ messages, m.changeSeq = k :=
  mem_map.mp (mem_of_le_advanceFrom _ hlt hle)

/-- A loop that runs out of fuel has seen as many numbers as its fuel. -/
theorem advanceFrom_eq_or (changes : List ℕ) (fuel next : ℕ) :
    advanceFrom changes fuel next = next + fuel ∨ advanceFrom changes fuel next + 1 ∉ changes := by
  induction fuel generalizing next with
  | zero => exact .inl rfl
  | succ fuel ih =>
    rw [advanceFrom]
    split
    · rw [show next + (fuel + 1) = next + 1 + fuel by omega]
      exact ih (next + 1)
    · next hmem => exact .inr hmem

/-- **The cursor stops at the first missing number**, as the loop of the
source does: the fuel is never what stops it. -/
theorem advanceCursor_succ_notMem (cursor : ℕ) (messages : List Message) :
    ∀ m ∈ messages, m.changeSeq ≠ advanceCursor cursor messages + 1 := by
  set changes := messages.map Message.changeSeq with hchanges
  have hnot : advanceCursor cursor messages + 1 ∉ changes := by
    rcases advanceFrom_eq_or changes messages.length cursor with h | h
    · -- all the numbers up to the fuel are there, so one more would be one too many
      intro hmem
      have hsub : Finset.Ioc cursor (cursor + messages.length + 1) ⊆ changes.toFinset := by
        intro k hk
        obtain ⟨hlt, hle⟩ := Finset.mem_Ioc.mp hk
        rw [mem_toFinset]
        rcases Nat.lt_or_eq_of_le hle with hk' | rfl
        · exact mem_of_le_advanceFrom messages.length hlt (by omega)
        · rwa [← h]
      have hcard := (Finset.card_le_card hsub).trans (toFinset_card_le changes)
      rw [Nat.card_Ioc, hchanges, length_map] at hcard
      omega
    · exact h
  exact fun m hm h => hnot (h ▸ mem_map_of_mem hm)

end Hibari
