import Hibari.MessagePage

/-!
# Messages kept for later

A user keeps messages for later, and moves what is kept between three tabs. The server
has a row for each message that was ever kept, and a number of its own for every change
of one (`saved.go`); a row that is taken out stays, as removed, and gets a new id when
the message is kept again. What changed is a log here, and the rows are the newest
entries of each message (`savedRows`).

A page is read by several statements: the last number first, and then the rows. The log
may have grown in between.

The second part is what the client does with one item (`rules/saved.ts`): it leaves every
tab and goes into that of its state, if it is not older than what a tab shows that has
more.
-/

namespace Hibari

open List

/-- The state of a message that is kept. One that is removed is in no tab. -/
inductive SavedState
  | inProgress
  | archived
  | completed
  | removed
  deriving DecidableEq

/-- The tabs. -/
abbrev SavedTab := { state : SavedState // state ≠ .removed }

def savedTabs : List SavedTab :=
  [⟨.inProgress, by decide⟩, ⟨.archived, by decide⟩, ⟨.completed, by decide⟩]

instance : Fintype SavedTab := Fintype.ofList savedTabs fun tab =>
  match tab with
  | ⟨.inProgress, _⟩ => by simp [savedTabs]
  | ⟨.archived, _⟩ => by simp [savedTabs]
  | ⟨.completed, _⟩ => by simp [savedTabs]
  | ⟨.removed, h⟩ => absurd rfl h

/-- One version of a message that is kept. -/
structure SavedItem where
  id : Ulid
  messageId : Ulid
  roomId : Ulid
  state : SavedState
  changeSeq : ℕ
  deriving DecidableEq

/-! ## The server -/

/-- What a user kept and moved, in the order of the numbers. -/
abbrev SavedLog := List SavedItem

/-- The row of a message: its newest version. -/
def savedRow (log : SavedLog) (messageId : Ulid) : Option SavedItem :=
  log.reverse.find? (fun v => decide (v.messageId = messageId))

/-- The rows of all messages. -/
def savedRows (log : SavedLog) : List SavedItem :=
  log.filter (fun v => decide (savedRow log v.messageId = some v))

/-- `ListSavedMessages`: the rows of a tab, the newest id first, below an id if one is
given. -/
def listSavedMessages (log : SavedLog) (tab : SavedTab) (before : Option Ulid) (maxRows : ℕ) :
    List SavedItem :=
  (((savedRows log).filter
    (fun v => decide (v.state = tab.1) && before.all (fun b => decide (v.id < b)))).insertionSort
      (fun a b => b.id ≤ a.id)).take maxRows

/-- A page of a tab, or of what changed. -/
structure SavedPage where
  items : List SavedItem
  lastChangeSeq : ℕ
  hasMore : Bool
  deriving DecidableEq

/-- A page of rows of which there are more than it holds, or not. -/
def savedPage (rows : List SavedItem) (limit lastChangeSeq : ℕ) : SavedPage :=
  if limit < rows.length then ⟨rows.take limit, lastChangeSeq, true⟩
  else ⟨rows, lastChangeSeq, false⟩

/-- How many items a page of a tab has, and one of changes. -/
def savedPageSize : ℕ := 50

/-- `ListSaved`, of a tab: the last number was read before. -/
def listSaved (log : SavedLog) (tab : SavedTab) (before : Option Ulid) (lastChangeSeq : ℕ) :
    SavedPage :=
  savedPage (listSavedMessages log tab before (savedPageSize + 1)) savedPageSize lastChangeSeq

/-! ### The log

Numbers are given out in order, and an id to one message only. -/

/-- **A log as the server writes it.** -/
inductive Written : SavedLog → Prop
  | nil : Written []
  | snoc {log : SavedLog} {w : SavedItem} : Written log → w.changeSeq = log.length + 1 →
      (∀ v ∈ log, v.id = w.id → v.messageId = w.messageId) → Written (log ++ [w])

namespace Written

variable {log : SavedLog} {v w : SavedItem}

/-- The numbers are those of the places in the log. -/
theorem changeSeq_bounds (h : Written log) (hv : v ∈ log) :
    0 < v.changeSeq ∧ v.changeSeq ≤ log.length := by
  induction h with
  | nil => cases hv
  | snoc _ hseq _ ih =>
    rw [length_append, length_singleton]
    cases mem_append.mp hv with
    | inl hold => exact ⟨(ih hold).1, (ih hold).2.trans (Nat.le_succ _)⟩
    | inr hnew =>
      rw [mem_singleton.mp hnew, hseq]
      exact ⟨Nat.succ_pos _, le_rfl⟩

theorem pairwise (h : Written log) : log.Pairwise fun a b => a.changeSeq < b.changeSeq := by
  induction h with
  | nil => exact List.Pairwise.nil
  | snoc hlog hseq _ ih =>
    refine pairwise_append.mpr ⟨ih, pairwise_singleton _ _, fun a ha b hb => ?_⟩
    rw [mem_singleton.mp hb, hseq]
    exact Nat.lt_succ_of_le (hlog.changeSeq_bounds ha).2

/-- An id is of one message. -/
theorem messageId_eq (h : Written log) (hv : v ∈ log) (hw : w ∈ log) (hid : v.id = w.id) :
    v.messageId = w.messageId := by
  induction h with
  | nil => cases hv
  | @snoc log last _ _ hnew ih =>
    rw [mem_append, mem_singleton] at hv hw
    cases hv with
    | inl hv =>
      cases hw with
      | inl hw => exact ih hv hw
      | inr hw =>
        rw [hw] at hid ⊢
        exact hnew v hv hid
    | inr hv =>
      rw [hv] at hid ⊢
      cases hw with
      | inl hw => exact (hnew w hw hid.symm).symm
      | inr hw => rw [hw]

theorem eq_of_savedRows (hv : v ∈ savedRows log) (hw : w ∈ savedRows log)
    (hm : v.messageId = w.messageId) : v = w := by
  have hv := of_decide_eq_true (mem_filter.mp hv).2
  have hw := of_decide_eq_true (mem_filter.mp hw).2
  rw [hm] at hv
  exact Option.some.inj (hv.symm.trans hw)

end Written

variable {items : List SavedItem}

/-! ### Pages -/

/-- The newest id first, and every id once. -/
def InTabOrder (items : List SavedItem) : Prop := items.Pairwise fun a b => b.id < a.id

theorem InTabOrder.getLast_le (h : InTabOrder items) {last x : SavedItem}
    (hlast : last ∈ items.getLast?) (hx : x ∈ items) : last.id ≤ x.id := by
  obtain ⟨init, rfl⟩ := getLast?_eq_some_iff.mp hlast
  rcases mem_append.mp hx with hin | hin
  · exact ((pairwise_append.mp h).2.2 x hin last (by simp)).le
  · rw [mem_singleton.mp hin]

theorem savedPage_take (rows : List SavedItem) (limit last : ℕ) :
    savedPage (rows.take (limit + 1)) limit last
      = ⟨rows.take limit, last, decide (limit < rows.length)⟩ := by
  unfold savedPage
  by_cases h : limit < rows.length
  · rw [if_pos (lt_length_take_succ.mpr h), take_take, Nat.min_eq_left (Nat.le_succ limit)]
    simp [h]
  · rw [if_neg (fun hlt => h (lt_length_take_succ.mp hlt)),
      take_of_length_le ((not_lt.mp h).trans (Nat.le_succ _)),
      take_of_length_le (not_lt.mp h)]
    simp [h]

/-- The rows of a tab below an id, of which a page is the first. -/
theorem mem_listSavedMessages {log : SavedLog} {tab : SavedTab} {before : Option Ulid}
    {v : SavedItem} :
    v ∈ ((savedRows log).filter
        (fun v => decide (v.state = tab.1) && before.all (fun b => decide (v.id < b)))).insertionSort
          (fun a b => b.id ≤ a.id)
      ↔ v ∈ savedRows log ∧ v.state = tab.1 ∧ ∀ b ∈ before, v.id < b := by
  rw [(perm_insertionSort _ _).mem_iff, mem_filter, Bool.and_eq_true, decide_eq_true_eq,
    Option.all_eq_true]
  simp only [decide_eq_true_eq, Option.mem_def]

theorem Written.id_injective {log : SavedLog} (h : Written log) {v w : SavedItem}
    (hv : v ∈ savedRows log) (hw : w ∈ savedRows log) (hid : v.id = w.id) : v = w :=
  Written.eq_of_savedRows hv hw (h.messageId_eq (mem_of_mem_filter hv) (mem_of_mem_filter hw) hid)

theorem inTabOrder_insertionSort (hid : items.Pairwise fun a b => a.id ≠ b.id) :
    InTabOrder (items.insertionSort (fun a b => b.id ≤ a.id)) := by
  have hsorted := pairwise_insertionSort (fun a b : SavedItem => b.id ≤ a.id) items
  have hdistinct := ((perm_insertionSort (fun a b : SavedItem => b.id ≤ a.id)
    items).pairwise_iff fun {a b} (h : a.id ≠ b.id) => h.symm).mpr hid
  exact (hsorted.and hdistinct).imp fun h => lt_of_le_of_ne h.1 h.2.symm

/-- The rows of a tab come in the order of the tab. -/
theorem Written.inTabOrder_rows {log : SavedLog} (h : Written log) (p : SavedItem → Bool) :
    InTabOrder (((savedRows log).filter p).insertionSort (fun a b => b.id ≤ a.id)) := by
  have hpairwise : ((savedRows log).filter p).Pairwise fun a b => a.changeSeq < b.changeSeq :=
    (h.pairwise.filter _).filter p
  refine inTabOrder_insertionSort (hpairwise.imp_of_mem fun {a b} ha hb hlt hid => ?_)
  have heq : a = b :=
    h.id_injective (mem_of_mem_filter ha) (mem_of_mem_filter hb) hid
  exact hlt.ne (congrArg SavedItem.changeSeq heq)

/-- **A page of a tab**: rows of the tab below the id, in order, and all of them down to
where the page ends. -/
structure SavedPage.IsTab (page : SavedPage) (rows : List SavedItem) (tab : SavedTab)
    (before : Option Ulid) : Prop where
  ordered : InTabOrder page.items
  row : ∀ v ∈ page.items, v ∈ rows
  state : ∀ v ∈ page.items, v.state = tab.1
  below : ∀ v ∈ page.items, ∀ b ∈ before, v.id < b
  complete : ∀ v ∈ rows, v.state = tab.1 → (∀ b ∈ before, v.id < b) →
    v ∈ page.items ∨ page.hasMore = true ∧ ∀ u ∈ page.items, v.id < u.id

theorem Written.isTab_listSaved {log : SavedLog} (h : Written log) (tab : SavedTab)
    (before : Option Ulid) (last : ℕ) :
    (listSaved log tab before last).IsTab (savedRows log) tab before := by
  unfold listSaved listSavedMessages
  rw [savedPage_take]
  have hmem := fun v : SavedItem => (@mem_listSavedMessages log tab before v).mp
  refine ⟨(h.inTabOrder_rows _).sublist (take_sublist _ _), fun v hv => ?_, fun v hv => ?_,
    fun v hv => ?_, fun v hv hstate hbelow => ?_⟩
  · exact (hmem v (mem_of_mem_take hv)).1
  · exact (hmem v (mem_of_mem_take hv)).2.1
  · exact (hmem v (mem_of_mem_take hv)).2.2
  · refine (mem_take_or_of_pairwise (h.inTabOrder_rows _) savedPageSize
      (mem_listSavedMessages.mpr ⟨hv, hstate, hbelow⟩)).imp_right fun hmore => ?_
    exact ⟨decide_eq_true hmore.1, hmore.2⟩

/-! ## The client -/

inductive SavedTabStatus
  | loading
  | ready
  | error
  deriving DecidableEq

/-- What the client shows of a tab. -/
structure SavedTabState where
  status : SavedTabStatus
  items : List SavedItem
  hasMore : Bool
  loadingMore : Bool
  deriving DecidableEq

/-- What is shown of a message, if anything is. -/
def heldItem (items : List SavedItem) (messageId : Ulid) : Option SavedItem :=
  items.find? (fun i => decide (i.messageId = messageId))

/-- Where a tab that has more ends: what is older is not put into it. -/
def placed (tab : SavedTab) (hasMore : Bool) (items : List SavedItem) (item : SavedItem) : Bool :=
  decide (item.state = tab.1) &&
    (!hasMore || items.getLast?.all (fun oldest => decide (oldest.id < item.id)))

/-- One item, for one tab. -/
def applySavedTab (tab : SavedTab) (item : SavedItem) (current : SavedTabState) : SavedTabState :=
  if (heldItem current.items item.messageId).any (fun e => decide (item.changeSeq < e.changeSeq)) then
    current
  else
    let items := current.items.filter (fun i => decide (i.messageId ≠ item.messageId))
    { current with
      items := if placed tab current.hasMore items item then
        (items ++ [item]).insertionSort (fun a b => b.id ≤ a.id) else items }

/-- `applySavedItem`: one item, for the tabs that were loaded. -/
def applySavedItem (tabs : SavedTab → Option SavedTabState) (item : SavedItem) :
    SavedTab → Option SavedTabState :=
  fun tab => (tabs tab).map (applySavedTab tab item)

end Hibari
