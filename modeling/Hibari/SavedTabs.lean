import Hibari.SavedItems

/-!
# What a tab of kept messages shows

A tab shows its newest rows, down to where what is loaded of it ends. An item that arrives either
leaves the tab as it is – where the tab has something newer of its message – or takes the place of
what was shown of its message (`SavedTabState.applySavedTab_cases`).
-/

namespace Hibari

open List

/-- What a tab has loaded: all of it, or what is not older than all that is shown. -/
def SavedTabState.InRange (T : SavedTabState) (id : Ulid) : Prop :=
  T.hasMore = true → ∃ u ∈ T.items, u.id ≤ id

/-- **A tab shows a row as it is**: where it is in the tab and in what is loaded, and
otherwise nothing of its message. -/
structure SavedTabState.Reflects (T : SavedTabState) (tab : SavedTab) (v : SavedItem) : Prop where
  shown : v.state = tab.1 → T.InRange v.id → v ∈ T.items
  only : ∀ u ∈ T.items, u.messageId = v.messageId → u = v ∧ v.state = tab.1

/-- What is shown without an item's message. -/
def otherItems (items : List SavedItem) (item : SavedItem) : List SavedItem :=
  items.filter (fun i => decide (i.messageId ≠ item.messageId))

namespace SavedTabState

variable {tab : SavedTab} {T : SavedTabState} {item u : SavedItem}
  {items : List SavedItem}

/-! ## One item -/

theorem mem_otherItems : u ∈ otherItems items item ↔ u ∈ items ∧ u.messageId ≠ item.messageId := by
  unfold otherItems
  rw [mem_filter, decide_eq_true_eq]

/-- What is shown of a message is what is found of it, where nothing is shown twice. -/
theorem heldItem_any (honce : items.Pairwise fun a b => a.messageId ≠ b.messageId)
    {messageId : Ulid} {p : SavedItem → Bool} :
    (heldItem items messageId).any p = true ↔ ∃ e ∈ items, e.messageId = messageId ∧ p e = true := by
  unfold heldItem
  induction items with
  | nil => simp
  | cons x _ ih =>
    obtain ⟨hx, honce⟩ := pairwise_cons.mp honce
    by_cases hm : x.messageId = messageId
    · rw [find?_cons, decide_eq_true hm, Option.any_some]
      refine ⟨fun hp => ⟨x, .head _, hm, hp⟩, fun ⟨e, he, hem, hp⟩ => ?_⟩
      rcases mem_cons.mp he with rfl | he
      · exact hp
      · exact absurd (hm.trans hem.symm) (hx e he)
    · rw [find?_cons, decide_eq_false hm, ih honce]
      refine ⟨fun ⟨e, he, hrest⟩ => ⟨e, .tail _ he, hrest⟩, fun ⟨e, he, hem, hp⟩ => ?_⟩
      rcases mem_cons.mp he with rfl | he
      · exact absurd hem hm
      · exact ⟨e, he, hem, hp⟩

/-- **What an item makes of a tab**: nothing, where the tab has something newer of its message;
otherwise the item is put into it, or not, without what was there of the message. -/
theorem applySavedTab_cases (honce : T.items.Pairwise fun a b => a.messageId ≠ b.messageId)
    (tab : SavedTab) (item : SavedItem) :
    ((∃ e ∈ T.items, e.messageId = item.messageId ∧ item.changeSeq < e.changeSeq) ∧
      applySavedTab tab item T = T) ∨
    ((∀ e ∈ T.items, e.messageId = item.messageId → e.changeSeq ≤ item.changeSeq) ∧
      ((placed tab T.hasMore (otherItems T.items item) item = true ∧
        applySavedTab tab item T = { T with
          items := (otherItems T.items item ++ [item]).insertionSort (fun a b => b.id ≤ a.id) }) ∨
      (placed tab T.hasMore (otherItems T.items item) item = false ∧
        applySavedTab tab item T = { T with items := otherItems T.items item }))) := by
  unfold applySavedTab
  by_cases hnewer : (heldItem T.items item.messageId).any
      (fun e => decide (item.changeSeq < e.changeSeq)) = true
  · rw [if_pos hnewer]
    obtain ⟨e, he, hm, hlt⟩ := (heldItem_any honce).mp hnewer
    exact .inl ⟨⟨e, he, hm, of_decide_eq_true hlt⟩, rfl⟩
  · rw [if_neg hnewer]
    refine .inr ⟨fun e he hm => ?_, ?_⟩
    · by_contra hlt
      exact hnewer ((heldItem_any honce).mpr ⟨e, he, hm, decide_eq_true (not_le.mp hlt)⟩)
    · cases hplaced : placed tab T.hasMore (otherItems T.items item) item with
      | true => exact .inl ⟨rfl, congrArg (fun l => { T with items := l }) (if_pos hplaced)⟩
      | false =>
        have hnot : ¬ placed tab T.hasMore (otherItems T.items item) item = true := by
          rw [hplaced]
          exact Bool.false_ne_true
        exact .inr ⟨rfl, congrArg (fun l => { T with items := l }) (if_neg hnot)⟩

theorem mem_insertItem :
    u ∈ (otherItems items item ++ [item]).insertionSort (fun a b => b.id ≤ a.id) ↔
      u ∈ otherItems items item ∨ u = item := by
  rw [(perm_insertionSort _ _).mem_iff, mem_append, mem_singleton]

/-- Where an item may be put: into a tab of its state, and not below all that is shown of a
tab that has more. -/
theorem placed_iff {hasMore : Bool} : placed tab hasMore items item = true ↔
    item.state = tab.1 ∧ (hasMore = true → ∀ last ∈ items.getLast?, last.id < item.id) := by
  unfold placed
  rw [Bool.and_eq_true, decide_eq_true_eq, Bool.or_eq_true, Bool.not_eq_true', Option.all_eq_true]
  refine and_congr_right fun _ => ?_
  cases hasMore <;> simp

theorem otherItems_sublist : (otherItems items item).Sublist items := filter_sublist

theorem once_insert (honce : items.Pairwise fun a b => a.messageId ≠ b.messageId) :
    ((otherItems items item ++ [item]).insertionSort (fun a b => b.id ≤ a.id)).Pairwise
      fun a b => a.messageId ≠ b.messageId := by
  refine ((perm_insertionSort _ _).pairwise_iff fun {a b} h => Ne.symm h).mpr ?_
  refine pairwise_append.mpr ⟨honce.sublist otherItems_sublist, pairwise_singleton _ _, ?_⟩
  intro a ha b hb
  rw [mem_singleton.mp hb]
  exact (mem_otherItems.mp ha).2

end SavedTabState

end Hibari
