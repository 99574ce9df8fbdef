import Hibari.SavedTabs

/-!
# A kept message is in one tab

The tabs are brought up to date by versions of what is kept, in whatever order they arrive. A
version is put into the tab of its state and taken from the others, and each tab drops a version
that is older than what it shows of the message. That is a tab's own knowledge: it does not know
what the other tabs show, and nothing is left of what was taken out.

So the newest version of each message is shown in the tab of its state, and no other version
anywhere, exactly as long as no version is put into a tab that a newer one has passed by
(`one_row_each_iff`) – and as long as a tab that has more and shows nothing does not begin anew in
the middle of what it has.
-/

namespace Hibari

open List Option

/-- The newest of the versions of its message. -/
def NewestOf (seen : List SavedItem) (v : SavedItem) : Prop :=
  v ∈ seen ∧ ∀ w ∈ seen, w.messageId = v.messageId → w.changeSeq ≤ v.changeSeq

instance (seen : List SavedItem) (v : SavedItem) : Decidable (NewestOf seen v) := by
  unfold NewestOf
  infer_instance

/-- **Versions as the server numbers them**: each change has its own number, and an id is of one
message. -/
structure Versions (seen : List SavedItem) : Prop where
  number : ∀ v ∈ seen, ∀ w ∈ seen, v.changeSeq = w.changeSeq → v = w
  id : ∀ v ∈ seen, ∀ w ∈ seen, v.id = w.id → v.messageId = w.messageId

/-- **A tab shows what it should**: newest ids first, a message once, and of each message that was
seen nothing but its newest version, and that where it belongs to the tab. -/
structure SavedTabState.Settled (T : SavedTabState) (tab : SavedTab) (seen : List SavedItem) :
    Prop where
  ordered : InTabOrder T.items
  once : T.items.Pairwise fun a b => a.messageId ≠ b.messageId
  newest : ∀ v, NewestOf seen v → T.Reflects tab v

/-- **One row for each message**: every tab that was loaded shows what it should, and a message is
in one of them. -/
structure OneRowEach (tabs : SavedTab → Option SavedTabState) (seen : List SavedItem) : Prop where
  settled : ∀ tab, ∀ T ∈ tabs tab, T.Settled tab seen
  apart : ∀ tab tab', ∀ T ∈ tabs tab, ∀ T' ∈ tabs tab', ∀ u ∈ T.items, ∀ u' ∈ T'.items,
    u.messageId = u'.messageId → tab = tab'

/-- A version **fits** into a tab: where it is put into it, no newer version of the message was
seen; and where it is all that is shown of a tab that has more, nothing that belongs to the tab
comes before it. -/
def SavedTabState.Takes (T : SavedTabState) (tab : SavedTab) (seen : List SavedItem)
    (item : SavedItem) : Prop :=
  (∀ e ∈ T.items, e.messageId = item.messageId → e.changeSeq ≤ item.changeSeq) →
    placed tab T.hasMore (otherItems T.items item) item = true →
      (∀ w ∈ seen, w.messageId = item.messageId → w.changeSeq ≤ item.changeSeq) ∧
        (T.hasMore = true → otherItems T.items item = [] →
          ∀ v ∈ seen, NewestOf seen v → v.messageId ≠ item.messageId → v.state = tab.1 →
            v.id < item.id)

instance (T : SavedTabState) (tab : SavedTab) (seen : List SavedItem) (item : SavedItem) :
    Decidable (T.Takes tab seen item) := by
  unfold SavedTabState.Takes
  infer_instance

variable {seen : List SavedItem} {T : SavedTabState} {tab : SavedTab} {item u v w : SavedItem}
  {tabs : SavedTab → Option SavedTabState}

/-! ## What was seen -/

theorem exists_newestOf (hw : w ∈ seen) : ∃ v, NewestOf seen v ∧ v.messageId = w.messageId := by
  obtain ⟨v, hv, hmax⟩ := Finset.exists_max_image
    ((seen.filter fun v => decide (v.messageId = w.messageId)).toFinset) SavedItem.changeSeq
    ⟨w, by simp [hw]⟩
  simp only [List.mem_toFinset, mem_filter, decide_eq_true_eq] at hv hmax
  exact ⟨v, ⟨hv.1, fun x hx hid => hmax x ⟨hx, hid.trans hv.2⟩⟩, hv.2⟩

theorem Versions.newest_eq (h : Versions seen) (hv : NewestOf seen v) (hw : NewestOf seen w)
    (hid : v.messageId = w.messageId) : v = w :=
  h.number v hv.1 w hw.1 (le_antisymm (hw.2 v hv.1 hid) (hv.2 w hw.1 hid.symm))

theorem Versions.mono {seen' : List SavedItem} (h : Versions seen) (hsub : ∀ v ∈ seen', v ∈ seen) :
    Versions seen' :=
  ⟨fun v hv w hw => h.number v (hsub v hv) w (hsub w hw),
    fun v hv w hw => h.id v (hsub v hv) w (hsub w hw)⟩

/-- A version of another message changes nothing about which one is the newest. -/
theorem newest_append_of_ne (hid : v.messageId ≠ item.messageId) :
    NewestOf (seen ++ [item]) v ↔ NewestOf seen v := by
  unfold NewestOf
  simp only [mem_append, mem_singleton]
  constructor
  · rintro ⟨hv | rfl, hmax⟩
    · exact ⟨hv, fun w hw => hmax w (.inl hw)⟩
    · exact absurd rfl hid
  · rintro ⟨hv, hmax⟩
    refine ⟨.inl hv, fun w hw hwid => ?_⟩
    rcases hw with hw | rfl
    · exact hmax w hw hwid
    · exact absurd hwid.symm hid

/-- A version that is not the newest of its message leaves the newest one. -/
theorem newest_append_of_lt (hw : w ∈ seen) (hid : w.messageId = item.messageId)
    (hlt : item.changeSeq < w.changeSeq) (hv : NewestOf (seen ++ [item]) v) : NewestOf seen v := by
  obtain ⟨hmem, hmax⟩ := hv
  refine ⟨?_, fun x hx => hmax x (mem_append_left _ hx)⟩
  rcases mem_append.mp hmem with hmem | hmem
  · exact hmem
  · rw [mem_singleton.mp hmem] at hmax
    exact absurd (hmax w (mem_append_left _ hw) hid) (not_le.mpr hlt)

/-! ## One version, for one tab -/

namespace SavedTabState

theorem InRange.of_others (h : InRange { T with items := otherItems T.items item } v.id) :
    T.InRange v.id := by
  intro hmore
  obtain ⟨u, hu, hle⟩ := h hmore
  exact ⟨u, (mem_otherItems.mp hu).1, hle⟩

variable (hT : T.Settled tab seen)
include hT

variable (hmem : ∀ u ∈ T.items, u ∈ seen)
include hmem

/-- **A version is put into a tab.** -/
theorem Settled.put (hversions : Versions (seen ++ [item]))
    (hplaced : placed tab T.hasMore (otherItems T.items item) item = true)
    (hnewest : ∀ w ∈ seen, w.messageId = item.messageId → w.changeSeq ≤ item.changeSeq)
    (hfirst : T.hasMore = true → otherItems T.items item = [] →
      ∀ v ∈ seen, NewestOf seen v → v.messageId ≠ item.messageId → v.state = tab.1 →
        v.id < item.id) :
    Settled { T with
      items := (otherItems T.items item ++ [item]).insertionSort (fun a b => b.id ≤ a.id) }
      tab (seen ++ [item]) := by
  obtain ⟨hstate, hlast⟩ := placed_iff.mp hplaced
  have hitem : NewestOf (seen ++ [item]) item := by
    refine ⟨mem_append_right _ (.head _), fun w hw hid => ?_⟩
    rcases mem_append.mp hw with hw | hw
    · exact hnewest w hw hid
    · rw [mem_singleton.mp hw]
  refine ⟨?_, once_insert hT.once, fun v hv => ?_⟩
  · refine inTabOrder_insertionSort (pairwise_append.mpr ⟨?_, pairwise_singleton _ _, ?_⟩)
    · exact (hT.ordered.sublist otherItems_sublist).imp fun hlt heq => hlt.ne heq.symm
    · intro a ha b hb heq
      obtain ⟨hin, hne⟩ := mem_otherItems.mp ha
      rw [mem_singleton.mp hb] at heq
      exact hne (hversions.id a (mem_append_left _ (hmem a hin)) item hitem.1 heq)
  · by_cases hid : v.messageId = item.messageId
    · obtain rfl := hversions.newest_eq hv hitem hid
      refine ⟨fun _ _ => mem_insertItem.mpr (.inr rfl), fun u hu huid => ?_⟩
      rcases mem_insertItem.mp hu with hu | rfl
      · exact absurd huid (mem_otherItems.mp hu).2
      · exact ⟨rfl, hstate⟩
    · have hv' : NewestOf seen v := (newest_append_of_ne hid).mp hv
      have hbefore := hT.newest v hv'
      refine ⟨fun hvstate hrange => mem_insertItem.mpr (.inl (mem_otherItems.mpr ⟨?_, hid⟩)),
        fun u hu huid => ?_⟩
      · refine hbefore.shown hvstate fun hmore => ?_
        obtain ⟨u, hu, hle⟩ := hrange hmore
        rcases mem_insertItem.mp hu with hu | rfl
        · exact ⟨u, (mem_otherItems.mp hu).1, hle⟩
        · -- what is put in is not below all that is shown, unless nothing is
          cases hothers : (otherItems T.items u).getLast? with
          | none =>
            have hempty : otherItems T.items u = [] := getLast?_eq_none_iff.mp hothers
            exact absurd hle (not_le.mpr (hfirst hmore hempty v hv'.1 hv' hid hvstate))
          | some last =>
            have hin := (mem_otherItems.mp (mem_of_getLast? hothers)).1
            exact ⟨last, hin, (hlast hmore last hothers).le.trans hle⟩
      · rcases mem_insertItem.mp hu with hu | rfl
        · exact hbefore.only u (mem_otherItems.mp hu).1 huid
        · exact absurd huid.symm hid

/-- **A version is not put into a tab**, and what was there of the message goes. -/
theorem Settled.without (hversions : Versions (seen ++ [item]))
    (hnot : placed tab T.hasMore (otherItems T.items item) item = false)
    (hheld : ∀ e ∈ T.items, e.messageId = item.messageId → e.changeSeq ≤ item.changeSeq) :
    Settled { T with items := otherItems T.items item } tab (seen ++ [item]) := by
  refine ⟨hT.ordered.sublist otherItems_sublist, hT.once.sublist otherItems_sublist, fun v hv => ?_⟩
  by_cases hid : v.messageId = item.messageId
  · refine ⟨fun hvstate hrange => ?_, fun u hu huid =>
      absurd (huid.trans hid) (mem_otherItems.mp hu).2⟩
    have hitem : item ∈ seen ++ [item] := mem_append_right _ (.head _)
    by_cases hnewer : ∃ w ∈ seen, w.messageId = item.messageId ∧ item.changeSeq < w.changeSeq
    · -- a newer version was seen: the tab showed that one, or nothing
      obtain ⟨w, hw, hwid, hlt⟩ := hnewer
      have hv' := newest_append_of_lt hw hwid hlt hv
      have hshown := (hT.newest v hv').shown hvstate hrange.of_others
      have hle := hheld v hshown hid
      exact absurd (hlt.trans_le (hv'.2 w hw (hwid.trans hid.symm))) (not_lt.mpr hle)
    · have hmax : v.changeSeq ≤ item.changeSeq := by
        rcases mem_append.mp hv.1 with hin | hin
        · exact not_lt.mp fun hlt => hnewer ⟨v, hin, hid, hlt⟩
        · rw [mem_singleton.mp hin]
      obtain rfl := hversions.number v hv.1 item hitem (le_antisymm hmax (hv.2 item hitem hid.symm))
      -- it belongs to the tab, and is below all that is shown
      exfalso
      have hplaced : placed tab T.hasMore (otherItems T.items v) v = true := by
        refine placed_iff.mpr ⟨hvstate, fun hmore last hlast => ?_⟩
        obtain ⟨u, hu, hle⟩ := hrange hmore
        have hlastle : last.id ≤ u.id :=
          InTabOrder.getLast_le (hT.ordered.sublist otherItems_sublist) hlast hu
        refine lt_of_le_of_ne (hlastle.trans hle) fun heq => ?_
        have hin := mem_otherItems.mp (mem_of_getLast? hlast)
        exact hin.2 (hversions.id last (mem_append_left _ (hmem last hin.1)) v hitem heq)
      rw [hnot] at hplaced
      exact Bool.false_ne_true hplaced
  · have hbefore := hT.newest v ((newest_append_of_ne hid).mp hv)
    exact ⟨fun hvstate hrange =>
      mem_otherItems.mpr ⟨hbefore.shown hvstate hrange.of_others, hid⟩,
      fun u hu => hbefore.only u (mem_otherItems.mp hu).1⟩

/-- **One version, for one tab**: the tab shows what it should afterwards exactly if the version
fits. -/
theorem Settled.apply_iff (hversions : Versions (seen ++ [item])) :
    (applySavedTab tab item T).Settled tab (seen ++ [item]) ↔ T.Takes tab seen item := by
  rcases applySavedTab_cases hT.once tab item with ⟨⟨e, he, hid, hlt⟩, heq⟩ |
    ⟨hheld, ⟨hplaced, heq⟩ | ⟨hnot, heq⟩⟩
  · -- the tab has something newer
    rw [heq]
    refine iff_of_true ⟨hT.ordered, hT.once, fun v hv => hT.newest v ?_⟩ fun hheld =>
      absurd hlt (not_lt.mpr (hheld e he hid))
    by_cases hvid : v.messageId = item.messageId
    · exact newest_append_of_lt (hmem e he) hid hlt hv
    · exact (newest_append_of_ne hvid).mp hv
  · rw [heq]
    constructor
    · intro hT' _ _
      have hitem : item ∈ (otherItems T.items item ++ [item]).insertionSort
          (fun a b => b.id ≤ a.id) := mem_insertItem.mpr (.inr rfl)
      refine ⟨fun w hw hid => ?_, fun hmore hothers v _ hv hid hstate => ?_⟩
      · obtain ⟨v, hv, hvid⟩ := exists_newestOf (mem_append_left [item] hw)
        obtain ⟨rfl, -⟩ := (hT'.newest v hv).only item hitem (hid.symm.trans hvid.symm)
        exact hv.2 w (mem_append_left _ hw) hid
      · by_contra hle
        have hshown := (hT'.newest v ((newest_append_of_ne hid).mpr hv)).shown hstate fun _ =>
          ⟨item, hitem, not_lt.mp hle⟩
        rcases mem_insertItem.mp hshown with hin | rfl
        · rw [hothers] at hin
          cases hin
        · exact hid rfl
    · intro htakes
      obtain ⟨hnewest, hfirst⟩ := htakes hheld hplaced
      exact hT.put hmem hversions hplaced hnewest hfirst
  · rw [heq]
    refine iff_of_true (hT.without hmem hversions hnot hheld) fun _ hplaced => ?_
    rw [hnot] at hplaced
    cases hplaced

end SavedTabState

open SavedTabState

/-! ## All tabs -/

/-- What the tabs show is something that was seen. -/
def HeldSeen (tabs : SavedTab → Option SavedTabState) (seen : List SavedItem) : Prop :=
  ∀ tab, ∀ T ∈ tabs tab, ∀ u ∈ T.items, u ∈ seen

/-- A version **fits**: into every tab that was loaded. -/
def FitsTabs (tabs : SavedTab → Option SavedTabState) (seen : List SavedItem)
    (item : SavedItem) : Prop :=
  ∀ tab, ∀ T ∈ tabs tab, T.Takes tab seen item

instance (tabs : SavedTab → Option SavedTabState) (seen : List SavedItem) (item : SavedItem) :
    Decidable (FitsTabs tabs seen item) := by
  unfold FitsTabs
  infer_instance

/-- Where every tab shows nothing but newest versions, those of its state, a message is in one of
them. -/
theorem oneRowEach_of_settled (hheld : HeldSeen tabs seen)
    (h : ∀ tab, ∀ T ∈ tabs tab, T.Settled tab seen) : OneRowEach tabs seen := by
  refine ⟨h, fun tab tab' T hT T' hT' u hu u' hu' hid => ?_⟩
  obtain ⟨v, hv, hvid⟩ := exists_newestOf (hheld tab T hT u hu)
  have hstate := (((h tab T hT).newest v hv).only u hu hvid.symm).2
  have hstate' := (((h tab' T' hT').newest v hv).only u' hu' (hid.symm.trans hvid.symm)).2
  exact Subtype.ext (hstate.symm.trans hstate')

theorem mem_applySavedItem {T' : SavedTabState} :
    T' ∈ applySavedItem tabs item tab ↔ ∃ T ∈ tabs tab, applySavedTab tab item T = T' :=
  map_eq_some_iff

theorem HeldSeen.apply (hheld : HeldSeen tabs seen)
    (honce : ∀ tab, ∀ T ∈ tabs tab, T.items.Pairwise fun a b => a.messageId ≠ b.messageId) :
    HeldSeen (applySavedItem tabs item) (seen ++ [item]) := by
  intro tab T' hT' u hu
  obtain ⟨T, hT, rfl⟩ := mem_applySavedItem.mp hT'
  have hmem := hheld tab T hT
  rcases applySavedTab_cases (honce tab T hT) tab item with ⟨-, heq⟩ |
    ⟨-, ⟨-, heq⟩ | ⟨-, heq⟩⟩
  · rw [heq] at hu
    exact mem_append_left _ (hmem u hu)
  · rw [heq] at hu
    rcases mem_insertItem.mp hu with hu | rfl
    · exact mem_append_left _ (hmem u (mem_otherItems.mp hu).1)
    · exact mem_append_right _ (.head _)
  · rw [heq] at hu
    exact mem_append_left _ (hmem u (mem_otherItems.mp hu).1)

/-- **One version**: there is one row for each message afterwards exactly if the version fits. -/
theorem OneRowEach.apply_iff (h : OneRowEach tabs seen) (hheld : HeldSeen tabs seen)
    (hversions : Versions (seen ++ [item])) :
    OneRowEach (applySavedItem tabs item) (seen ++ [item]) ↔ FitsTabs tabs seen item := by
  have happly : ∀ tab, ∀ T ∈ tabs tab,
      ((applySavedTab tab item T).Settled tab (seen ++ [item]) ↔ T.Takes tab seen item) :=
    fun tab T hT => (h.settled tab T hT).apply_iff (hheld tab T hT) hversions
  constructor
  · intro h' tab T hT
    exact (happly tab T hT).mp (h'.settled tab _ (mem_applySavedItem.mpr ⟨T, hT, rfl⟩))
  · intro hfits
    refine oneRowEach_of_settled (hheld.apply fun tab T hT => (h.settled tab T hT).once)
      fun tab T' hT' => ?_
    obtain ⟨T, hT, rfl⟩ := mem_applySavedItem.mp hT'
    exact (happly tab T hT).mpr (hfits tab T hT)

/-- Versions **fit in turn**: each into what those before it have left. -/
def FitInTurn : (SavedTab → Option SavedTabState) → List SavedItem → List SavedItem → Prop
  | _, _, [] => True
  | tabs, seen, item :: items =>
    FitsTabs tabs seen item ∧ FitInTurn (applySavedItem tabs item) (seen ++ [item]) items

/-- There is **one row for each message throughout**: at first, and after each of the versions. -/
def OneRowThroughout : (SavedTab → Option SavedTabState) → List SavedItem → List SavedItem → Prop
  | tabs, seen, [] => OneRowEach tabs seen
  | tabs, seen, item :: items =>
    OneRowEach tabs seen ∧ OneRowThroughout (applySavedItem tabs item) (seen ++ [item]) items

instance : ∀ (items : List SavedItem) (tabs : SavedTab → Option SavedTabState)
    (seen : List SavedItem), Decidable (FitInTurn tabs seen items) := by
  intro items
  induction items with
  | nil => exact fun _ _ => isTrue trivial
  | cons item items ih =>
    intro tabs seen
    have := ih (applySavedItem tabs item) (seen ++ [item])
    exact inferInstanceAs (Decidable (_ ∧ _))

/-- **Tabs as the server gives them**: those that were loaded are first pages of what one user
keeps. -/
def FirstPages (log : SavedLog) (last : ℕ) (tabs : SavedTab → Option SavedTabState) : Prop :=
  ∀ tab, ∀ T ∈ tabs tab, T.items = (listSaved log tab none last).items ∧
    T.hasMore = (listSaved log tab none last).hasMore

/-- A page of rows that are the newest versions of their messages. -/
theorem settled_of_isTab {log : SavedLog} {page : SavedPage}
    (hpage : page.IsTab (savedRows log) tab none) (hitems : T.items = page.items)
    (hmore : T.hasMore = page.hasMore) : T.Settled tab (savedRows log) := by
  have hrow : ∀ u ∈ T.items, u ∈ savedRows log := fun u hu => hpage.row u (hitems ▸ hu)
  refine ⟨hitems ▸ hpage.ordered, ?_, fun v hv => ⟨fun hstate hrange => ?_, fun u hu hid => ?_⟩⟩
  · refine (hitems ▸ hpage.ordered : InTabOrder T.items).imp_of_mem fun {a b} ha hb hlt hid => ?_
    exact hlt.ne (congrArg SavedItem.id (Written.eq_of_savedRows (hrow a ha) (hrow b hb) hid)).symm
  · rcases hpage.complete v hv.1 hstate (fun b hb => absurd hb (not_mem_none b)) with
      hin | ⟨hpmore, hbelow⟩
    · exact hitems ▸ hin
    · obtain ⟨u, hu, hle⟩ := hrange (hmore.trans hpmore)
      exact absurd hle (not_le.mpr (hbelow u (hitems ▸ hu)))
  · obtain rfl := Written.eq_of_savedRows (hrow u hu) hv.1 hid
    exact ⟨rfl, hpage.state u (hitems ▸ hu)⟩

/-- **Tabs as the server gives them have one row for each message.** -/
theorem oneRowEach_of_firstPages {log : SavedLog} (hlog : Written log) {last : ℕ}
    (h : FirstPages log last tabs) :
    HeldSeen tabs (savedRows log) ∧ OneRowEach tabs (savedRows log) := by
  have hheld : HeldSeen tabs (savedRows log) := fun tab T hT u hu =>
    (hlog.isTab_listSaved tab none last).row u ((h tab T hT).1 ▸ hu)
  exact ⟨hheld, oneRowEach_of_settled hheld fun tab T hT =>
    settled_of_isTab (hlog.isTab_listSaved tab none last) (h tab T hT).1 (h tab T hT).2⟩

/-- **Whatever versions arrive, and in whatever order**: there is one row for each message
throughout, in the tab of its newest version, exactly if there was at first and each version fits
into the tabs as those before it have left them. -/
theorem one_row_each_iff (items : List SavedItem) (hheld : HeldSeen tabs seen)
    (hversions : Versions (seen ++ items)) :
    OneRowThroughout tabs seen items ↔ OneRowEach tabs seen ∧ FitInTurn tabs seen items := by
  induction items generalizing tabs seen with
  | nil => exact (and_iff_left trivial).symm
  | cons item _ ih =>
    rw [append_cons] at hversions
    refine and_congr_right fun h => ?_
    have hstep : OneRowEach (applySavedItem tabs item) (seen ++ [item]) ↔ FitsTabs tabs seen item :=
      h.apply_iff hheld (hversions.mono fun v hv => mem_append_left _ hv)
    have hrest := ih (hheld.apply fun tab T hT => (h.settled tab T hT).once) hversions
    exact hrest.trans (and_congr_left' hstep)

/-! ## A version that was overtaken -/

/-- A message was kept, and then archived. -/
def keptVersion : SavedItem := ⟨10, 1, 1, .inProgress, 1⟩

def archivedVersion : SavedItem := { keptVersion with state := .archived, changeSeq := 2 }

/-- Two tabs that were loaded when nothing was kept. -/
def emptyTabs : SavedTab → Option SavedTabState :=
  fun tab => if tab.1 = .completed then none else some ⟨.ready, [], false, false⟩

theorem emptyTabs_firstPages : FirstPages [] 0 emptyTabs := by
  intro tab T hT
  unfold emptyTabs at hT
  split at hT
  · exact absurd hT (not_mem_none T)
  · cases hT
    exact ⟨rfl, rfl⟩

theorem keptVersions : Versions [keptVersion, archivedVersion] := by
  constructor <;> decide

/-- In the order of the changes the message moves from one tab to the other. -/
theorem one_row_each_in_order : OneRowThroughout emptyTabs [] [keptVersion, archivedVersion] := by
  have h := oneRowEach_of_firstPages Written.nil emptyTabs_firstPages
  exact (one_row_each_iff [keptVersion, archivedVersion] h.1 keptVersions).mpr
    ⟨h.2, by decide +kernel⟩

/-- **The version that was overtaken** is put into its tab when it arrives after the newer one,
which is in the other tab. -/
theorem two_rows_out_of_order :
    Versions ([] ++ [archivedVersion, keptVersion]) ∧ OneRowEach emptyTabs [] ∧
      (∃ T ∈ [archivedVersion, keptVersion].foldl applySavedItem emptyTabs ⟨.inProgress, by decide⟩,
        T.items = [keptVersion]) ∧
      (∃ T ∈ [archivedVersion, keptVersion].foldl applySavedItem emptyTabs ⟨.archived, by decide⟩,
        T.items = [archivedVersion]) ∧
      ¬OneRowEach ([archivedVersion, keptVersion].foldl applySavedItem emptyTabs)
        [archivedVersion, keptVersion] := by
  have hkept : ∃ T ∈ [archivedVersion, keptVersion].foldl applySavedItem emptyTabs
      ⟨.inProgress, by decide⟩, T.items = [keptVersion] := ⟨_, rfl, by decide⟩
  have harchived : ∃ T ∈ [archivedVersion, keptVersion].foldl applySavedItem emptyTabs
      ⟨.archived, by decide⟩, T.items = [archivedVersion] := ⟨_, rfl, by decide⟩
  refine ⟨⟨by decide, by decide⟩,
    (oneRowEach_of_firstPages Written.nil emptyTabs_firstPages).2, hkept, harchived,
    fun h => ?_⟩
  obtain ⟨T, hT, hitems⟩ := hkept
  obtain ⟨T', hT', hitems'⟩ := harchived
  have htab := h.apart _ _ T hT T' hT' keptVersion (by rw [hitems]; exact .head _)
    archivedVersion (by rw [hitems']; exact .head _) rfl
  exact nomatch htab

end Hibari
