import Hibari.UnreadCounts

/-!
# What a thread counts

The row of a thread's root has two counters. `last_thread_seq` is the number of the last
reply, and never goes back; `thread_reply_count` is the number that is shown, and goes down
when a reply is deleted. Who follows the thread has a row with the number up to which it was
read, and what is unread is the difference to the first counter – so deleted replies count
as unread, and the number shown does not.

The first part is about the table alone (`Threaded`), by what is done to it: a message is
posted, a reply is added, a message or a reply is deleted. The second is about who follows
(`Positioned`). A reply lets up to five groups of people follow at once; that comes to its
sender, at the reply, and everybody else one before it (`followReply_eq`).
-/

namespace Hibari

open List Option Function

/-! ## The table -/

/-- A message, as far as threads go. -/
structure ThreadRow where
  id : Ulid
  threadRootId : Option Ulid
  threadSeq : Option ℕ
  lastThreadSeq : ℕ
  threadReplyCount : ℤ
  deleted : Bool
  deriving DecidableEq

namespace ThreadRow

/-- A reply is counted in its root. -/
def addReply (p : ThreadRow) : ThreadRow :=
  { p with
    lastThreadSeq := p.lastThreadSeq + 1
    threadReplyCount := p.threadReplyCount + 1 }

/-- A reply is no longer shown. -/
def removeReply (p : ThreadRow) : ThreadRow := { p with threadReplyCount := p.threadReplyCount - 1 }

def delete (r : ThreadRow) : ThreadRow := { r with deleted := true }

end ThreadRow

/-- Write a row that is there. -/
def updateRow (rows : List ThreadRow) (id : Ulid) (f : ThreadRow → ThreadRow) : List ThreadRow :=
  rows.map fun r => if r.id = id then f r else r

/-- The replies of a thread. -/
def repliesOf (rows : List ThreadRow) (root : Ulid) : List ThreadRow :=
  rows.filter fun r => decide (r.threadRootId = some root)

/-- **A table whose threads are counted right**: a reply has a root, which is no reply, the
replies are numbered from one on in the order in which they came, and those that are not
deleted are as many as the root says. -/
structure Threaded (rows : List ThreadRow) : Prop where
  ids : (rows.map ThreadRow.id).Nodup
  root : ∀ r ∈ rows, ∀ root ∈ r.threadRootId, ∃ p ∈ rows, p.id = root ∧ p.threadRootId = none
  numbered : ∀ p ∈ rows, (repliesOf rows p.id).map ThreadRow.threadSeq
    = (List.range p.lastThreadSeq).map fun i => some (i + 1)
  counted : ∀ p ∈ rows,
    p.threadReplyCount = ((repliesOf rows p.id).countP (fun r => !r.deleted) : ℤ)

/-- The roots of a table stay, and their replies become no fewer. -/
def Grows (rows rows' : List ThreadRow) : Prop :=
  ∀ p ∈ rows, ∃ p' ∈ rows', p'.id = p.id ∧ p.lastThreadSeq ≤ p'.lastThreadSeq

section Rows

variable {rows : List ThreadRow} {id root : Ulid} {f : ThreadRow → ThreadRow} {r : ThreadRow}

theorem updateRow_self (h : ∀ r, f r = r) : updateRow rows id f = rows := by
  unfold updateRow
  refine (map_congr_left fun r _ => ?_).trans (List.map_id rows)
  show (if r.id = id then f r else r) = r
  rw [h, ite_self]

theorem mem_updateRow :
    r ∈ updateRow rows id f ↔ ∃ x ∈ rows, (if x.id = id then f x else x) = r := List.mem_map

/-- A map of rows that keeps what a filter looks at goes through the filter. -/
theorem repliesOf_updateRow (hf : ∀ r, (f r).threadRootId = r.threadRootId) :
    repliesOf (updateRow rows id f) root = updateRow (repliesOf rows root) id f := by
  unfold repliesOf updateRow
  rw [List.filter_map]
  congr 1
  refine filter_congr fun r _ => ?_
  show decide ((if r.id = id then f r else r).threadRootId = some root) = _
  split
  · rw [hf]
  · rfl

theorem map_updateRow {β : Type*} {g : ThreadRow → β} (hg : ∀ r, g (f r) = g r) :
    (updateRow rows id f).map g = rows.map g := by
  unfold updateRow
  rw [List.map_map]
  refine map_congr_left fun r _ => ?_
  show g (if r.id = id then f r else r) = g r
  split
  · exact hg r
  · rfl

theorem repliesOf_append (rows more : List ThreadRow) (root : Ulid) :
    repliesOf (rows ++ more) root = repliesOf rows root ++ repliesOf more root :=
  filter_append ..

theorem repliesOf_singleton : repliesOf [r] root = if r.threadRootId = some root then [r] else [] := by
  by_cases h : r.threadRootId = some root
  · rw [if_pos h]
    exact filter_cons_of_pos (decide_eq_true h)
  · rw [if_neg h]
    exact filter_cons_of_neg (by simpa using h)

/-- Deleting a row that counts makes one less. -/
theorem countP_delete (hnodup : (rows.map ThreadRow.id).Nodup) (hr : r ∈ rows)
    (hdeleted : r.deleted = false) :
    (updateRow rows r.id .delete).countP (fun r => !r.deleted) + 1
      = rows.countP fun r => !r.deleted := by
  induction rows with
  | nil => cases hr
  | cons x rows ih =>
    obtain ⟨hx, hrest⟩ := nodup_cons.mp hnodup
    rcases mem_cons.mp hr with rfl | hmem
    · have hsame : updateRow rows r.id .delete = rows := by
        refine (map_congr_left fun y hy => ?_).trans (List.map_id rows)
        rw [if_neg]
        · rfl
        · intro heq
          exact hx (List.mem_map.mpr ⟨y, hy, heq⟩)
      show ((if r.id = r.id then r.delete else r) :: updateRow rows r.id .delete).countP _ + 1 = _
      rw [if_pos rfl, hsame, countP_cons_of_neg (by simp [ThreadRow.delete]),
        countP_cons_of_pos (by simp [hdeleted])]
    · have hne : x.id ≠ r.id := fun heq => hx (List.mem_map.mpr ⟨r, hmem, heq.symm⟩)
      show ((if x.id = r.id then x.delete else x) :: updateRow rows r.id .delete).countP _ + 1 = _
      rw [if_neg hne, countP_cons, countP_cons, ← ih hrest hmem]
      omega

theorem updateRow_of_notMem (h : ∀ r ∈ rows, r.id ≠ id) : updateRow rows id f = rows := by
  refine (map_congr_left fun r hr => ?_).trans (List.map_id rows)
  rw [if_neg (h r hr)]
  rfl

end Rows

namespace Threaded

variable {rows : List ThreadRow} {p r : ThreadRow}

section

variable (h : Threaded rows)
include h

theorem eq_of_id (hp : p ∈ rows) (hr : r ∈ rows) (hid : p.id = r.id) : p = r :=
  inj_on_of_nodup_map h.ids hp hr hid

variable (hfresh : ∀ x ∈ rows, x.id ≠ r.id)
include hfresh

theorem repliesOf_fresh : repliesOf rows r.id = [] := by
  refine filter_eq_nil_iff.mpr fun x hx hroot => ?_
  obtain ⟨p, hp, hid, -⟩ := h.root x hx r.id (of_decide_eq_true hroot)
  exact hfresh p hp hid

theorem nodup_append : ((rows ++ [r]).map ThreadRow.id).Nodup := by
  rw [map_append, map_singleton]
  refine List.Nodup.append h.ids (nodup_singleton _) fun id hid hnew => ?_
  obtain ⟨x, hx, rfl⟩ := List.mem_map.mp hid
  exact hfresh x hx (mem_singleton.mp hnew)

/-- A message that is no reply is posted. -/
theorem post (hroot : r.threadRootId = none)
    (hlast : r.lastThreadSeq = 0) (hcount : r.threadReplyCount = 0) : Threaded (rows ++ [r]) := by
  have hreplies : ∀ root, repliesOf (rows ++ [r]) root = repliesOf rows root := fun root => by
    rw [repliesOf_append, repliesOf_singleton, hroot, if_neg (by simp), append_nil]
  refine ⟨h.nodup_append hfresh, fun x hx root hxroot => ?_, fun p hp => ?_, fun p hp => ?_⟩
  · rcases mem_append.mp hx with hx | hx
    · obtain ⟨p, hp, hid, hnone⟩ := h.root x hx root hxroot
      exact ⟨p, mem_append_left _ hp, hid, hnone⟩
    · rw [mem_singleton.mp hx, hroot] at hxroot
      cases hxroot
  · rw [hreplies]
    rcases mem_append.mp hp with hp | hp
    · exact h.numbered p hp
    · rw [mem_singleton.mp hp, h.repliesOf_fresh hfresh, hlast]
      rfl
  · rw [hreplies]
    rcases mem_append.mp hp with hp | hp
    · exact h.counted p hp
    · rw [mem_singleton.mp hp, h.repliesOf_fresh hfresh, hcount]
      rfl

omit hfresh

/-- **A reply is added.** -/
theorem reply (hp : p ∈ rows) (hproot : p.threadRootId = none)
    (hfresh : ∀ x ∈ rows, x.id ≠ r.id) (hroot : r.threadRootId = some p.id)
    (hseq : r.threadSeq = some (p.lastThreadSeq + 1)) (hlast : r.lastThreadSeq = 0)
    (hcount : r.threadReplyCount = 0) (hdeleted : r.deleted = false) :
    Threaded (updateRow rows p.id .addReply ++ [r]) := by
  have hids : (updateRow rows p.id .addReply).map ThreadRow.id = rows.map ThreadRow.id :=
    map_updateRow fun _ => rfl
  have hreplies : ∀ root, repliesOf (updateRow rows p.id .addReply ++ [r]) root
      = updateRow (repliesOf rows root) p.id .addReply ++ if p.id = root then [r] else [] := by
    intro root
    rw [repliesOf_append, repliesOf_updateRow (f := ThreadRow.addReply) fun _ => rfl,
      repliesOf_singleton, hroot]
    simp only [some_inj]
  have hseqs : ∀ root, (updateRow (repliesOf rows root) p.id .addReply).map ThreadRow.threadSeq
      = (repliesOf rows root).map ThreadRow.threadSeq := fun root => map_updateRow fun _ => rfl
  have hshown : ∀ root, (updateRow (repliesOf rows root) p.id .addReply).countP (fun r => !r.deleted)
      = (repliesOf rows root).countP fun r => !r.deleted := by
    intro root
    have hmap : (updateRow (repliesOf rows root) p.id .addReply).map ThreadRow.deleted
        = (repliesOf rows root).map ThreadRow.deleted := map_updateRow fun _ => rfl
    have hcount : ∀ rows : List ThreadRow, rows.countP (fun r => !r.deleted)
        = (rows.map ThreadRow.deleted).countP (fun d => !d) := fun rows => by
      rw [countP_map]
      rfl
    rw [hcount, hmap, ← hcount]
  have hne : r.id ≠ p.id := (hfresh p hp).symm
  -- a row after the reply is one from before, counted up if it is the root, or the reply
  have hcases : ∀ q ∈ updateRow rows p.id .addReply ++ [r],
      (q = p.addReply) ∨ (q ∈ rows ∧ q.id ≠ p.id) ∨ q = r := by
    intro q hq
    rcases mem_append.mp hq with hq | hq
    · obtain ⟨x, hx, rfl⟩ := mem_updateRow.mp hq
      by_cases hid : x.id = p.id
      · rw [if_pos hid, h.eq_of_id hx hp hid]
        exact .inl rfl
      · rw [if_neg hid]
        exact .inr (.inl ⟨hx, hid⟩)
    · exact .inr (.inr (mem_singleton.mp hq))
  have hroots : ∀ x ∈ rows, ∀ root ∈ x.threadRootId,
      ∃ q ∈ updateRow rows p.id .addReply ++ [r], q.id = root ∧ q.threadRootId = none := by
    intro x hx root hxroot
    obtain ⟨q, hq, hid, hnone⟩ := h.root x hx root hxroot
    refine ⟨if q.id = p.id then q.addReply else q,
      mem_append_left _ (mem_updateRow.mpr ⟨q, hq, rfl⟩), ?_, ?_⟩
    · split
      · exact hid
      · exact hid
    · split
      · exact hnone
      · exact hnone
  refine ⟨?_, fun q hq root hqroot => ?_, fun q hq => ?_, fun q hq => ?_⟩
  · rw [map_append, hids, ← map_append]
    exact h.nodup_append hfresh
  · rcases hcases q hq with rfl | ⟨hq, -⟩ | rfl
    · exact hroots p hp root hqroot
    · exact hroots q hq root hqroot
    · rw [hroot, mem_some_iff] at hqroot
      refine ⟨p.addReply, mem_append_left _ (mem_updateRow.mpr ⟨p, hp, if_pos rfl⟩), ?_, hproot⟩
      exact hqroot
  · rw [hreplies, map_append, hseqs]
    rcases hcases q hq with rfl | ⟨hq, hid⟩ | rfl
    · show _ = (List.range (p.lastThreadSeq + 1)).map _
      have hid : p.addReply.id = p.id := rfl
      rw [hid, if_pos rfl, range_succ, map_append, ← h.numbered p hp, map_singleton, hseq]
      rfl
    · rw [if_neg (Ne.symm hid), map_nil, append_nil]
      exact h.numbered q hq
    · rw [if_neg (Ne.symm hne), h.repliesOf_fresh hfresh, hlast]
      rfl
  · rw [hreplies, countP_append, hshown]
    rcases hcases q hq with rfl | ⟨hq, hid⟩ | rfl
    · show p.threadReplyCount + 1 = _
      have hid : p.addReply.id = p.id := rfl
      rw [hid, if_pos rfl, h.counted p hp, countP_singleton, hdeleted]
      rfl
    · rw [if_neg (Ne.symm hid), h.counted q hq]
      rfl
    · rw [if_neg (Ne.symm hne), h.repliesOf_fresh hfresh, hcount]
      rfl

/-- Rows change in what does not number them. -/
theorem of_map {g : ThreadRow → ThreadRow} (hid : ∀ r, (g r).id = r.id)
    (hroot : ∀ r, (g r).threadRootId = r.threadRootId) (hseq : ∀ r, (g r).threadSeq = r.threadSeq)
    (hlast : ∀ r, (g r).lastThreadSeq = r.lastThreadSeq)
    (hcounted : ∀ p ∈ rows, (g p).threadReplyCount
      = (((repliesOf rows p.id).map g).countP (fun r => !r.deleted) : ℤ)) :
    Threaded (rows.map g) := by
  have hreplies : ∀ root, repliesOf (rows.map g) root = (repliesOf rows root).map g := by
    intro root
    unfold repliesOf
    rw [List.filter_map]
    congr 1
    refine filter_congr fun r _ => ?_
    show decide ((g r).threadRootId = some root) = _
    rw [hroot]
  refine ⟨?_, fun r' hr' root hr'root => ?_, fun p' hp' => ?_, fun p' hp' => ?_⟩
  · have hids : (rows.map g).map ThreadRow.id = rows.map ThreadRow.id := by
      rw [List.map_map]
      exact map_congr_left fun r _ => hid r
    rw [hids]
    exact h.ids
  · obtain ⟨r, hr, rfl⟩ := List.mem_map.mp hr'
    rw [hroot] at hr'root
    obtain ⟨p, hp, hpid, hnone⟩ := h.root r hr root hr'root
    exact ⟨g p, List.mem_map_of_mem hp, (hid p).trans hpid, (hroot p).trans hnone⟩
  · obtain ⟨p, hp, rfl⟩ := List.mem_map.mp hp'
    rw [hid, hlast, hreplies, List.map_map, ← h.numbered p hp]
    exact map_congr_left fun r _ => hseq r
  · obtain ⟨p, hp, rfl⟩ := List.mem_map.mp hp'
    rw [hid, hreplies]
    exact hcounted p hp

/-- What deleting a row does to the number of its siblings. -/
theorem countP_repliesOf_delete (hr : r ∈ rows) (hdeleted : r.deleted = false) (root : Ulid) :
    ((updateRow (repliesOf rows root) r.id .delete).countP (fun r => !r.deleted) : ℤ)
      = (repliesOf rows root).countP (fun r => !r.deleted)
        - if r.threadRootId = some root then 1 else 0 := by
  by_cases hroot : r.threadRootId = some root
  · have hmem : r ∈ repliesOf rows root := mem_filter.mpr ⟨hr, decide_eq_true hroot⟩
    have hnodup : ((repliesOf rows root).map ThreadRow.id).Nodup :=
      h.ids.sublist (filter_sublist.map _)
    have hcount := countP_delete hnodup hmem hdeleted
    rw [if_pos hroot]
    omega
  · have hnot : ∀ x ∈ repliesOf rows root, x.id ≠ r.id := by
      intro x hx hid
      obtain ⟨hx, hxroot⟩ := mem_filter.mp hx
      rw [h.eq_of_id hx hr hid] at hxroot
      exact hroot (of_decide_eq_true hxroot)
    rw [if_neg hroot, updateRow_of_notMem hnot, sub_zero]

/-- A message that is no reply is deleted. -/
theorem delete (hr : r ∈ rows) (hdeleted : r.deleted = false)
    (hroot : r.threadRootId = none) : Threaded (updateRow rows r.id .delete) := by
  refine h.of_map (fun x => ?_) (fun x => ?_) (fun x => ?_) (fun x => ?_) fun p hp => ?_
  · split <;> rfl
  · split <;> rfl
  · split <;> rfl
  · split <;> rfl
  · have hcount := h.countP_repliesOf_delete hr hdeleted p.id
    rw [hroot, if_neg (by simp), sub_zero, ← h.counted p hp] at hcount
    rw [← updateRow, hcount]
    split <;> rfl

/-- **A reply is deleted**, and its root shows one less. -/
theorem deleteReply (hr : r ∈ rows) (hdeleted : r.deleted = false) {root : Ulid}
    (hroot : r.threadRootId = some root) :
    Threaded (updateRow (updateRow rows r.id .delete) root .removeReply) := by
  unfold updateRow
  rw [List.map_map]
  refine h.of_map (fun x => ?_) (fun x => ?_) (fun x => ?_) (fun x => ?_) fun p hp => ?_
  · simp only [comp_apply]
    split <;> split <;> rfl
  · simp only [comp_apply]
    split <;> split <;> rfl
  · simp only [comp_apply]
    split <;> split <;> rfl
  · simp only [comp_apply]
    split <;> split <;> rfl
  · have hshown : ((repliesOf rows p.id).map ((fun x => if x.id = root then x.removeReply else x) ∘
          fun x => if x.id = r.id then x.delete else x)).countP (fun r => !r.deleted)
        = (updateRow (repliesOf rows p.id) r.id .delete).countP fun r => !r.deleted := by
      rw [← List.map_map, countP_map]
      refine countP_congr fun x _ => ?_
      simp only [comp_apply]
      split <;> rfl
    rw [hshown, h.countP_repliesOf_delete hr hdeleted, ← h.counted p hp, hroot]
    simp only [comp_apply, some_inj]
    have hid : (if p.id = r.id then p.delete else p).id = p.id := by split <;> rfl
    have hcount : (if p.id = r.id then p.delete else p).threadReplyCount = p.threadReplyCount := by
      split <;> rfl
    rw [hid]
    by_cases hp' : p.id = root
    · rw [if_pos hp', if_pos hp'.symm]
      show (if p.id = r.id then p.delete else p).threadReplyCount - 1 = _
      rw [hcount]
    · rw [if_neg hp', if_neg (Ne.symm hp'), hcount, sub_zero]

/-- **What is unread in a thread** is a difference. -/
theorem length_filter_after (hp : p ∈ rows) {n : ℕ} (hn : n ≤ p.lastThreadSeq) :
    ((repliesOf rows p.id).filter fun r => r.threadSeq.any (fun k => decide (n < k))).length + n
      = p.lastThreadSeq := by
  have hmap : ((repliesOf rows p.id).filter fun r => r.threadSeq.any (fun k => decide (n < k))).length
      = (((repliesOf rows p.id).map ThreadRow.threadSeq).filter
          fun t => t.any (fun k => decide (n < k))).length := by
    rw [List.filter_map, length_map]
    rfl
  rw [hmap, h.numbered p hp, List.filter_map, length_map]
  have hrange : (List.range p.lastThreadSeq).filter
      ((fun t : Option ℕ => t.any (fun k => decide (n < k))) ∘ fun i => some (i + 1))
        = (List.range p.lastThreadSeq).filter fun i => decide (n ≤ i) := by
    refine filter_congr fun i _ => ?_
    show decide (n < i + 1) = decide (n ≤ i)
    simp
  rw [hrange]
  generalize p.lastThreadSeq = last at hn
  induction last with
  | zero =>
    rw [range_zero, filter_nil, length_nil, Nat.zero_add]
    exact Nat.le_zero.mp hn
  | succ last ih =>
    rw [range_succ, filter_append, length_append]
    rcases Nat.lt_or_ge last n with hlt | hge
    · have heq : n = last + 1 := by omega
      have hnil : (List.range last).filter (fun i => decide (n ≤ i)) = [] := by
        refine filter_eq_nil_iff.mpr fun i hi => ?_
        have hi := mem_range.mp hi
        rw [decide_eq_true_eq]
        omega
      rw [hnil, filter_cons_of_neg (by simpa using hlt)]
      simp [heq]
    · rw [filter_cons_of_pos (by simpa using hge)]
      have hstep := ih hge
      simp only [filter_nil, length_singleton]
      omega

end

end Threaded

/-! ## Who follows -/

/-- A thread and who follows it. -/
def ThreadMember.key (tm : ThreadMember) : Ulid × Ulid := (tm.threadRootId, tm.userId)

/-- **Who follows which thread**, once each, and has read no further than it goes. -/
structure Positioned (rows : List ThreadRow) (ts : List ThreadMember) : Prop where
  keys : (ts.map ThreadMember.key).Nodup
  read : ∀ tm ∈ ts, ∃ p ∈ rows, p.id = tm.threadRootId ∧ tm.lastReadThreadSeq ≤ p.lastThreadSeq

/-- Positions only move forward, and who does not follow may follow. -/
def Forward (ts ts' : List ThreadMember) : Prop :=
  ∀ tm' ∈ ts', tm'.key ∉ ts.map ThreadMember.key ∨
    ∃ tm ∈ ts, tm.key = tm'.key ∧ tm.lastReadThreadSeq ≤ tm'.lastReadThreadSeq

/-- Move the position of a key. -/
def advanceKey (ts : List ThreadMember) (key : Ulid × Ulid) (n : ℕ) : List ThreadMember :=
  ts.map fun tm => if tm.threadRootId = key.1 ∧ tm.userId = key.2 then
    { tm with lastReadThreadSeq := max tm.lastReadThreadSeq n } else tm

section Positions

variable {rows rows' : List ThreadRow} {ts ts' : List ThreadMember} {key : Ulid × Ulid} {n : ℕ}
  {p : ThreadRow}

theorem Forward.refl : Forward ts ts := fun tm htm => .inr ⟨tm, htm, rfl, le_rfl⟩

theorem Forward.of_sublist (h : ts'.Sublist ts) : Forward ts ts' :=
  fun tm htm => .inr ⟨tm, h.subset htm, rfl, le_rfl⟩

/-- **A position that is there does not go back.** -/
theorem Forward.le {tm tm' : ThreadMember} (h : Forward ts ts') (hkeys : (ts.map ThreadMember.key).Nodup)
    (htm : tm ∈ ts) (htm' : tm' ∈ ts') (hkey : tm.key = tm'.key) :
    tm.lastReadThreadSeq ≤ tm'.lastReadThreadSeq := by
  rcases h tm' htm' with hnew | ⟨tm₀, htm₀, hkey₀, hle⟩
  · exact absurd (List.mem_map.mpr ⟨tm, htm, hkey⟩) hnew
  · rw [inj_on_of_nodup_map hkeys htm htm₀ (hkey.trans hkey₀.symm)]
    exact hle

theorem Grows.refl : Grows rows rows := fun p hp => ⟨p, hp, rfl, le_rfl⟩

theorem Grows.append (h : Grows rows rows') (more : List ThreadRow) : Grows rows (rows' ++ more) :=
  fun p hp => by
    obtain ⟨p', hp', hid, hle⟩ := h p hp
    exact ⟨p', mem_append_left _ hp', hid, hle⟩

theorem Grows.updateRow {id : Ulid} {f : ThreadRow → ThreadRow} (h : Grows rows rows')
    (hid : ∀ r, (f r).id = r.id) (hlast : ∀ r, r.lastThreadSeq ≤ (f r).lastThreadSeq) :
    Grows rows (Hibari.updateRow rows' id f) := fun p hp => by
  obtain ⟨p', hp', hpid, hle⟩ := h p hp
  refine ⟨_, mem_updateRow.mpr ⟨p', hp', rfl⟩, ?_, ?_⟩
  · split
    · exact (hid p').trans hpid
    · exact hpid
  · split
    · exact hle.trans (hlast p')
    · exact hle

theorem keys_advanceKey : (advanceKey ts key n).map ThreadMember.key = ts.map ThreadMember.key := by
  unfold advanceKey
  rw [List.map_map]
  refine map_congr_left fun tm _ => ?_
  show ThreadMember.key (if _ then _ else tm) = tm.key
  split <;> rfl

namespace Positioned

section

variable (h : Positioned rows ts)
include h

theorem grow (hrows : Grows rows rows') : Positioned rows' ts where
  keys := h.keys
  read tm htm := by
    obtain ⟨p, hp, hid, hle⟩ := h.read tm htm
    obtain ⟨p', hp', hid', hle'⟩ := hrows p hp
    exact ⟨p', hp', hid'.trans hid, hle.trans hle'⟩

theorem of_sublist (hts : ts'.Sublist ts) : Positioned rows ts' where
  keys := h.keys.sublist (hts.map _)
  read tm htm := h.read tm (hts.subset htm)

/-- Somebody follows. -/
theorem follow (hp : p ∈ rows) (hn : n ≤ p.lastThreadSeq) {u : Ulid}
    (hnew : (p.id, u) ∉ ts.map ThreadMember.key) : Positioned rows (ts ++ [⟨p.id, u, n⟩]) where
  keys := by
    rw [map_append, map_singleton]
    refine List.Nodup.append h.keys (nodup_singleton _) fun key hkey hlast => ?_
    rw [mem_singleton.mp hlast] at hkey
    exact hnew hkey
  read tm htm := by
    rcases mem_append.mp htm with htm | htm
    · exact h.read tm htm
    · rw [mem_singleton.mp htm]
      exact ⟨p, hp, rfl, hn⟩

/-- Several follow. -/
theorem followAll (hp : p ∈ rows) (hn : n ≤ p.lastThreadSeq)
    {users : List Ulid} (hnodup : users.Nodup)
    (hnew : ∀ u ∈ users, (p.id, u) ∉ ts.map ThreadMember.key) :
    Positioned rows (ts ++ users.map fun u => ⟨p.id, u, n⟩) := by
  induction users generalizing ts with
  | nil =>
    rw [map_nil, append_nil]
    exact h
  | cons u _ ih =>
    obtain ⟨hu, hrest⟩ := nodup_cons.mp hnodup
    have hfirst := h.follow hp hn (hnew u (.head _))
    rw [map_cons, append_cons]
    refine ih hfirst hrest fun v hv hkey => ?_
    rw [map_append] at hkey
    rcases mem_append.mp hkey with hkey | hkey
    · exact hnew v (.tail _ hv) hkey
    · have heq : v = u := (Prod.mk_inj.mp (mem_singleton.mp hkey)).2
      exact hu (heq ▸ hv)

/-- A position moves. -/
theorem advance (hn : ∀ p ∈ rows, p.id = key.1 → n ≤ p.lastThreadSeq) :
    Positioned rows (advanceKey ts key n) where
  keys := by
    rw [keys_advanceKey]
    exact h.keys
  read tm' htm' := by
    obtain ⟨tm, htm, rfl⟩ := List.mem_map.mp htm'
    obtain ⟨p, hp, hid, hle⟩ := h.read tm htm
    split
    · next hkey => exact ⟨p, hp, hid, max_le hle (hn p hp (hid.trans hkey.1))⟩
    · exact ⟨p, hp, hid, hle⟩

end

end Positioned

theorem forward_advanceKey : Forward ts (advanceKey ts key n) := by
  intro tm' htm'
  obtain ⟨tm, htm, rfl⟩ := List.mem_map.mp htm'
  refine .inr ⟨tm, htm, ?_, ?_⟩
  · split <;> rfl
  · split
    · exact le_max_left _ _
    · exact le_rfl

theorem forward_append {more : List ThreadMember} (h : ∀ tm ∈ more, tm.key ∉ ts.map ThreadMember.key) :
    Forward ts (ts ++ more) := by
  intro tm htm
  rcases mem_append.mp htm with htm | htm
  · exact .inr ⟨tm, htm, rfl, le_rfl⟩
  · exact .inl (h tm htm)

end Positions

/-! ## The threads of a room -/

/-- A message, as far as threads go. -/
def LedgerMessage.threadRow (m : LedgerMessage) : ThreadRow :=
  ⟨m.id, m.threadRootId, m.threadSeq, m.lastThreadSeq, m.threadReplyCount, m.deleted⟩

namespace RoomLedger

variable {kind : RoomKind} {l l' : RoomLedger} {w : LedgerWrite} {numbers : RoomRecord}
  {root : Ulid} {n : ℕ} {m : LedgerMessage} {actor clientMsgId userId : Ulid} {body : String}
    {alsoInChannel : Bool} {mentions : BodyMentions}

def threadRows (l : RoomLedger) : List ThreadRow := l.messages.map LedgerMessage.threadRow

/-- The replies of a thread after a position, deleted ones included. -/
def unreadReplies (l : RoomLedger) (root : Ulid) (n : ℕ) : List LedgerMessage :=
  (l.replies root).filter fun m => m.threadSeq.any (fun k => decide (n < k))

/-- **The threads of a room as they should be.** -/
structure ThreadSound (l : RoomLedger) : Prop where
  table : Threaded l.threadRows
  positions : Positioned l.threadRows l.threadMembers

theorem repliesOf_threadRows (l : RoomLedger) (root : Ulid) :
    repliesOf l.threadRows root = (l.replies root).map LedgerMessage.threadRow := by
  unfold repliesOf threadRows replies
  rw [List.filter_map]
  rfl

theorem mem_threadRows (hm : m ∈ l.messages) : m.threadRow ∈ l.threadRows :=
  List.mem_map_of_mem hm

theorem threadRows_updateMessage (id : Ulid) {f : LedgerMessage → LedgerMessage}
    {g : ThreadRow → ThreadRow} (hfg : ∀ m, (f m).threadRow = g m.threadRow) :
    (l.updateMessage id f).threadRows = updateRow l.threadRows id g := by
  unfold threadRows updateMessage updateRow
  rw [List.map_map, List.map_map]
  refine map_congr_left fun m _ => ?_
  show (if m.id = id then f m else m).threadRow = if m.id = id then g m.threadRow else m.threadRow
  split
  · exact hfg m
  · rfl

theorem fresh_threadRow {p : LedgerMessage} (hid : ∀ x ∈ l.messages, x.id ≠ p.id) :
    ∀ x ∈ l.threadRows, x.id ≠ p.threadRow.id := by
  intro x hx
  obtain ⟨m, hm, rfl⟩ := List.mem_map.mp hx
  exact hid m hm

theorem follows_iff {u : Ulid} :
    l.follows root u = true ↔ (root, u) ∈ l.threadMembers.map ThreadMember.key := by
  unfold follows
  rw [List.any_eq_true, List.mem_map]
  refine exists_congr fun tm => and_congr_right fun _ => ?_
  rw [decide_eq_true_eq]
  exact Prod.mk_inj.symm

/-! ### Following -/

/-- A message is posted in the channel, or a log line is written. -/
theorem ThreadSound.post (h : l.ThreadSound) (hid : ∀ x ∈ l.messages, x.id ≠ m.id)
    (hroot : m.threadRootId = none) (hlast : m.lastThreadSeq = 0) (hcount : m.threadReplyCount = 0)
    (hmessages : l'.messages = l.messages ++ [m]) (hts : l'.threadMembers = l.threadMembers) :
    l'.ThreadSound := by
  have hrows : l'.threadRows = l.threadRows ++ [m.threadRow] := by
    unfold threadRows
    rw [hmessages, map_append, map_singleton]
  refine ⟨?_, ?_⟩
  · rw [hrows]
    exact h.table.post (fresh_threadRow hid) hroot hlast hcount
  · rw [hrows, hts]
    exact h.positions.grow (Grows.refl.append _)

theorem ThreadSound.keep (h : l.ThreadSound) (hrows : l'.threadRows = l.threadRows)
    (hts : l'.threadMembers = l.threadMembers) : l'.ThreadSound := by
  refine ⟨?_, ?_⟩
  · rw [hrows]
    exact h.table
  · rw [hrows, hts]
    exact h.positions

/-- **Several may follow at once**: those who do not yet, each at the same position. -/
theorem threadMembers_followThreadForMentioned (root : Ulid) (users : List Ulid) (n : ℕ) :
    ∃ new : List Ulid, (l.followThreadForMentioned root users n).threadMembers
        = l.threadMembers ++ new.map (fun u => ⟨root, u, n⟩) ∧
      new.Nodup ∧ ∀ u ∈ new, (root, u) ∉ l.threadMembers.map ThreadMember.key := by
  induction users generalizing l with
  | nil =>
    exact ⟨[], (append_nil _).symm, nodup_nil, nofun⟩
  | cons u users ih =>
    obtain ⟨new, hts, hnodup, hnew⟩ := ih (l := l.followThread root n u)
    show ∃ new : List Ulid, ((l.followThread root n u).followThreadForMentioned root users n).threadMembers
        = _ ∧ _
    by_cases hif : (l.isMember u && !l.follows root u) = true
    · have hfollow : (l.followThread root n u).threadMembers = l.threadMembers ++ [⟨root, u, n⟩] := by
        unfold followThread
        rw [if_pos hif]
      have hu : (root, u) ∉ l.threadMembers.map ThreadMember.key := by
        rw [← follows_iff]
        simp only [Bool.and_eq_true, Bool.not_eq_true'] at hif
        simp [hif.2]
      rw [hfollow] at hts hnew
      refine ⟨u :: new, ?_, nodup_cons.mpr ⟨fun hmem => ?_, hnodup⟩, fun v hv => ?_⟩
      · rw [hts, append_assoc]
        rfl
      · refine hnew u hmem ?_
        rw [map_append]
        exact mem_append_right _ (.head _)
      · rcases mem_cons.mp hv with rfl | hv
        · exact hu
        · intro hkey
          refine hnew v hv ?_
          rw [map_append]
          exact mem_append_left _ hkey
    · have hsame : l.followThread root n u = l := by
        unfold followThread
        rw [if_neg hif]
      rw [hsame] at hts hnew ⊢
      exact ⟨new, hts, hnodup, hnew⟩

/-- The sender of a reply follows, or has read up to it. -/
def followSender (l : RoomLedger) (root actor : Ulid) (n : ℕ) : RoomLedger :=
  if l.isMember actor && !l.follows root actor then l.followThread root n actor
  else l.advanceThreadReadToThreadSeq root actor n

/-- **Who follows after a reply**: its sender, at the reply, and some others, who have not
read it. -/
theorem followReply_eq (kind : RoomKind) (l : RoomLedger) (root actor rootSender : Ulid) (n : ℕ)
    (mentions : BodyMentions) :
    ∃ users, l.followReply kind actor root rootSender n mentions
      = (l.followSender root actor n).followThreadForMentioned root users (n - 1) := by
  have hone : ∀ (l : RoomLedger) (u : Ulid),
      l.followThread root (n - 1) u = l.followThreadForMentioned root [u] (n - 1) := fun l u => rfl
  have hroot : ∀ l : RoomLedger, ∃ users,
      (if n = 1 ∧ rootSender ≠ actor then l.followThread root 0 rootSender else l)
        = l.followThreadForMentioned root users (n - 1) := by
    intro l
    by_cases hif : n = 1 ∧ rootSender ≠ actor
    · refine ⟨[rootSender], ?_⟩
      rw [if_pos hif, ← hone, hif.1]
    · exact ⟨[], if_neg hif⟩
  have hdm : ∀ l : RoomLedger, ∃ users,
      (if n = 1 ∧ kind = .roomDM then l.followThreadForRoomMembers root 0 else l)
        = l.followThreadForMentioned root users (n - 1) := by
    intro l
    by_cases hif : n = 1 ∧ kind = .roomDM
    · refine ⟨l.members.map RoomMember.userId, ?_⟩
      rw [if_pos hif, hif.1]
      rfl
    · exact ⟨[], if_neg hif⟩
  have hmentions : ∀ l : RoomLedger, ∃ users,
      (if mentions.channel then l.followThreadForRoomMembers root (n - 1)
        else l.followThreadForMentioned root (mentions.users ++ mentions.hereTargets) (n - 1))
        = l.followThreadForMentioned root users (n - 1) := by
    intro l
    by_cases hif : mentions.channel = true
    · exact ⟨l.members.map RoomMember.userId, if_pos hif⟩
    · exact ⟨mentions.users ++ mentions.hereTargets, if_neg hif⟩
  have happend : ∀ (l : RoomLedger) (us vs : List Ulid),
      (l.followThreadForMentioned root us (n - 1)).followThreadForMentioned root vs (n - 1)
        = l.followThreadForMentioned root (us ++ vs) (n - 1) := fun l us vs => by
    unfold followThreadForMentioned
    rw [foldl_append]
  obtain ⟨us, hus⟩ := hroot (l.followSender root actor n)
  obtain ⟨vs, hvs⟩ := hdm ((l.followSender root actor n).followThreadForMentioned root us (n - 1))
  obtain ⟨ws, hws⟩ := hmentions
    ((l.followSender root actor n).followThreadForMentioned root (us ++ vs) (n - 1))
  refine ⟨us ++ vs ++ ws, ?_⟩
  unfold followReply
  show (if mentions.channel then _ else _) = _
  rw [← followSender, hus, hvs, happend, hws, happend]

/-- The sender's own row. -/
theorem threadMembers_followSender (root : Ulid) (n : ℕ) (hmember : l.isMember actor = true) :
    ((root, actor) ∉ l.threadMembers.map ThreadMember.key ∧
      (l.followSender root actor n).threadMembers = l.threadMembers ++ [⟨root, actor, n⟩]) ∨
    ((root, actor) ∈ l.threadMembers.map ThreadMember.key ∧
      (l.followSender root actor n).threadMembers = advanceKey l.threadMembers (root, actor) n) := by
  unfold followSender
  cases hfollows : l.follows root actor with
  | true =>
    refine .inr ⟨follows_iff.mp hfollows, ?_⟩
    rw [hmember]
    rfl
  | false =>
    refine .inl ⟨?_, ?_⟩
    · rw [← follows_iff, hfollows]
      simp
    · unfold followThread
      rw [hmember, hfollows]
      rfl

/-- **What a reply does to who follows.** Its sender has read it, who follows because of it
has not, and nobody else's position is moved back. -/
structure AfterReply (root actor : Ulid) (n : ℕ) (ts ts' : List ThreadMember) : Prop where
  forward : Forward ts ts'
  keys : ts.map ThreadMember.key ⊆ ts'.map ThreadMember.key
  sender : (root, actor) ∈ ts'.map ThreadMember.key
  read : ∀ tm ∈ ts', tm.key = (root, actor) → n ≤ tm.lastReadThreadSeq
  follower : ∀ tm ∈ ts', tm.key ∉ ts.map ThreadMember.key → tm.key ≠ (root, actor) →
    tm.lastReadThreadSeq = n - 1

/-- The sender follows, or has read the reply. -/
theorem afterReply_followSender (hmember : l.isMember actor = true) :
    AfterReply root actor n l.threadMembers (l.followSender root actor n).threadMembers := by
  rcases threadMembers_followSender root n hmember with ⟨hkey, heq⟩ | ⟨hkey, heq⟩
  · rw [heq]
    refine ⟨forward_append fun tm htm => ?_, ?_, ?_, fun tm htm htmkey => ?_,
      fun tm htm htmkey hne => ?_⟩
    · rw [mem_singleton.mp htm]
      exact hkey
    · rw [map_append]
      exact subset_append_left _ _
    · rw [map_append]
      exact mem_append_right _ (.head _)
    · rcases mem_append.mp htm with htm | htm
      · exact absurd (List.mem_map.mpr ⟨tm, htm, htmkey⟩) hkey
      · rw [mem_singleton.mp htm]
    · rcases mem_append.mp htm with htm | htm
      · exact absurd (List.mem_map_of_mem htm) htmkey
      · rw [mem_singleton.mp htm] at hne
        exact absurd rfl hne
  · rw [heq]
    refine ⟨forward_advanceKey, ?_, ?_, fun tm htm htmkey => ?_, fun tm htm htmkey => ?_⟩
    · rw [keys_advanceKey]
      exact List.Subset.refl _
    · rw [keys_advanceKey]
      exact hkey
    · obtain ⟨tm₀, htm₀, rfl⟩ := List.mem_map.mp htm
      have hkey₀ : tm₀.threadRootId = root ∧ tm₀.userId = actor := by
        by_contra hne
        rw [if_neg hne] at htmkey
        exact hne (Prod.mk_inj.mp htmkey)
      rw [if_pos hkey₀]
      exact le_max_right _ _
    · have hmem : tm.key ∈ (advanceKey l.threadMembers (root, actor) n).map ThreadMember.key :=
        List.mem_map_of_mem htm
      rw [keys_advanceKey] at hmem
      exact absurd hmem htmkey

/-- Others follow, who have not read it. -/
theorem AfterReply.followAll {ts ts' : List ThreadMember} {users : List Ulid}
    (h : AfterReply root actor n ts ts')
    (hnew : ∀ u ∈ users, (root, u) ∉ ts'.map ThreadMember.key) :
    AfterReply root actor n ts (ts' ++ users.map fun u => ⟨root, u, n - 1⟩) := by
  have hmore : ∀ tm ∈ users.map (fun u => (⟨root, u, n - 1⟩ : ThreadMember)),
      tm.key ∉ ts'.map ThreadMember.key := by
    intro tm htm
    obtain ⟨u, hu, rfl⟩ := List.mem_map.mp htm
    exact hnew u hu
  refine ⟨fun tm htm => ?_, ?_, ?_, fun tm htm htmkey => ?_, fun tm htm htmkey hne => ?_⟩
  · rcases mem_append.mp htm with htm | htm
    · exact h.forward tm htm
    · exact .inl fun htmkey => hmore tm htm (h.keys htmkey)
  · rw [map_append]
    exact List.Subset.trans h.keys (subset_append_left _ _)
  · rw [map_append]
    exact mem_append_left _ h.sender
  · rcases mem_append.mp htm with htm | htm
    · exact h.read tm htm htmkey
    · exact absurd (htmkey ▸ h.sender) (hmore tm htm)
  · rcases mem_append.mp htm with htm | htm
    · exact h.follower tm htm htmkey hne
    · obtain ⟨u, -, rfl⟩ := List.mem_map.mp htm
      rfl

theorem afterReply_followReply (kind : RoomKind) (root rootSender : Ulid) (n : ℕ)
    (mentions : BodyMentions) (hmember : l.isMember actor = true) : AfterReply root actor n l.threadMembers
      (l.followReply kind actor root rootSender n mentions).threadMembers := by
  obtain ⟨users, husers⟩ := followReply_eq kind l root actor rootSender n mentions
  obtain ⟨new, hts, -, hnew⟩ := threadMembers_followThreadForMentioned
    (l := l.followSender root actor n) root users (n - 1)
  rw [husers, hts]
  exact (afterReply_followSender hmember).followAll hnew

/-- Nobody follows twice because of a reply, or is ahead of it. -/
theorem positioned_followReply (kind : RoomKind) (rootSender : Ulid) (mentions : BodyMentions) {rows : List ThreadRow} {p : ThreadRow} (hmember : l.isMember actor = true)
    (h : Positioned rows l.threadMembers) (hp : p ∈ rows) (hid : p.id = root)
    (hlast : p.lastThreadSeq = n) (hids : ∀ q ∈ rows, q.id = root → q = p) :
    Positioned rows (l.followReply kind actor root rootSender n mentions).threadMembers := by
  obtain ⟨users, husers⟩ := followReply_eq kind l root actor rootSender n mentions
  obtain ⟨new, hts, hnodup, hnew⟩ := threadMembers_followThreadForMentioned
    (l := l.followSender root actor n) root users (n - 1)
  have hsender : Positioned rows (l.followSender root actor n).threadMembers := by
    rcases threadMembers_followSender root n hmember with ⟨hkey, heq⟩ | ⟨-, heq⟩
    · rw [heq]
      rw [← hid] at hkey ⊢
      exact h.follow hp hlast.ge hkey
    · rw [heq]
      refine h.advance fun q hq hqid => ?_
      rw [hids q hq hqid, hlast]
  rw [husers, hts]
  rw [← hid] at hnew hsender ⊢
  exact hsender.followAll hp ((Nat.sub_le n 1).trans hlast.ge) hnodup hnew

/-! ### What a transaction does to the threads -/

/-- What a transaction does to the rows that follow, and to the threads. -/
structure KeepsThreads (l l' : RoomLedger) : Prop where
  sound : l'.ThreadSound
  forward : Forward l.threadMembers l'.threadMembers

section

variable (h : l.ThreadSound)
include h

theorem KeepsThreads.keep (hrows : l'.threadRows = l.threadRows)
    (hts : l'.threadMembers = l.threadMembers) : KeepsThreads l l' where
  sound := h.keep hrows hts
  forward := by
    rw [hts]
    exact .refl

theorem KeepsThreads.post (hid : ∀ x ∈ l.messages, x.id ≠ m.id) (hroot : m.threadRootId = none)
    (hlast : m.lastThreadSeq = 0) (hcount : m.threadReplyCount = 0)
    (hmessages : l'.messages = l.messages ++ [m]) (hts : l'.threadMembers = l.threadMembers) :
    KeepsThreads l l' where
  sound := h.post hid hroot hlast hcount hmessages hts
  forward := by
    rw [hts]
    exact .refl

theorem KeepsThreads.touch (id : Ulid) {f : LedgerMessage → LedgerMessage}
    (hf : ∀ m, (f m).threadRow = m.threadRow) :
    KeepsThreads l ({ l with room := numbers }.updateMessage id f) := by
  refine .keep h ?_ rfl
  rw [threadRows_updateMessage (g := fun r => r) id hf, updateRow_self fun _ => rfl]
  rfl

theorem ThreadSound.eq_of_id {p q : LedgerMessage} (hp : p ∈ l.messages)
    (hq : q ∈ l.messages) (hid : p.id = q.id) : p.threadRow = q.threadRow :=
  h.table.eq_of_id (mem_threadRows hp) (mem_threadRows hq) hid

end

/-- What a reply leaves of the messages. -/
def replied (l : RoomLedger) (numbers : RoomRecord) (root : Ulid) (m : LedgerMessage) : RoomLedger :=
  let l' := { l with room := numbers }.updateMessage root fun m => { m with
    lastThreadSeq := m.lastThreadSeq + 1
    threadReplyCount := m.threadReplyCount + 1
    changeSeq := numbers.lastChangeSeq }
  { l' with messages := l'.messages ++ [m] }

theorem threadRows_replied : (l.replied numbers root m).threadRows
    = updateRow l.threadRows root .addReply ++ [m.threadRow] := by
  unfold replied threadRows
  rw [map_append, map_singleton]
  congr 1
  exact threadRows_updateMessage (l := { l with room := numbers }) root fun _ => rfl

theorem isMember_advanceLastReadSeq (userId : Ulid) (seq : ℕ) (u : Ulid) :
    (l.advanceLastReadSeq userId seq).isMember u = l.isMember u := by
  unfold isMember advanceLastReadSeq
  rw [List.any_map]
  congr 1
  funext rm
  show decide ((if rm.userId = userId then l.advanced rm seq else rm).userId = u) = _
  split <;> rfl

/-- **What a reply comes to**: the reply is added to the thread of a message that is no
reply, and then people follow. -/
theorem written_sendThreadReply {id : Ulid}
    (hadmits : l.admits (.sendThreadReply actor clientMsgId id root body alsoInChannel mentions) = true)
    (h : l.written kind numbers (.sendThreadReply actor clientMsgId id root body alsoInChannel mentions)
      = some l') :
    ∃ p ∈ l.messages, p.id = root ∧ p.threadRootId = none ∧ (∀ x ∈ l.messages, x.id ≠ id) ∧
      ∃ l₁ : RoomLedger, l₁.threadMembers = l.threadMembers ∧ l₁.isMember actor = true ∧
        l₁.messages = (l.replied numbers root (userMessage numbers (numbers.lastChangeSeq - 1) actor
          clientMsgId id body (some root) (some (p.lastThreadSeq + 1)) alsoInChannel)).messages ∧
        l' = l₁.followReply kind actor root p.senderId (p.lastThreadSeq + 1) mentions := by
  unfold written at h
  cases hroot : l.getMessage root with
  | none => simp [hroot] at h
  | some p =>
    obtain ⟨hp, hpid⟩ := mem_of_getMessage hroot
    simp only [hroot] at h
    obtain ⟨l₂, hl₂, rfl⟩ := map_eq_some_iff.mp h
    obtain ⟨rfl, hid, -⟩ := createMessage_eq_some hl₂
    simp only [admits, Bool.and_eq_true, hroot, any_some] at hadmits
    obtain ⟨⟨hmember, -⟩, hthread⟩ := hadmits
    have hproot : p.threadRootId = none := by
      cases hsome : p.threadRootId with
      | none => rfl
      | some => simp [isThreadRoot, hsome] at hthread
    refine ⟨p, hp, hpid, hproot, fun x hx => ?_, _, ?_, ?_, ?_, rfl⟩
    · have hnew := hid _ (List.mem_map_of_mem hx)
      intro hxid
      refine hnew ?_
      split
      · exact hxid
      · exact hxid
    · cases alsoInChannel <;> rfl
    · cases alsoInChannel with
      | false => exact hmember
      | true => exact (isMember_advanceLastReadSeq _ _ _).trans hmember
    · cases alsoInChannel <;> rfl

/-- **A reply**, as the thread has it afterwards. -/
structure Replied (l l' : RoomLedger) (root actor id : Ulid) : Prop where
  keeps : KeepsThreads l l'
  last : ∃ p ∈ l'.messages, p.id = root ∧ ∃ m ∈ l'.messages, m.id = id ∧
    m.threadRootId = some root ∧ m.threadSeq = some p.lastThreadSeq ∧
    AfterReply root actor p.lastThreadSeq l.threadMembers l'.threadMembers

variable (hs : l.ThreadSound)
include hs

theorem replied_of_written {id : Ulid}
    (hadmits : l.admits (.sendThreadReply actor clientMsgId id root body alsoInChannel mentions) = true)
    (h : l.written kind numbers (.sendThreadReply actor clientMsgId id root body alsoInChannel mentions)
      = some l') : Replied l l' root actor id := by
  obtain ⟨p, hp, hpid, hproot, hid, l₁, hts, hmember, hmessages, rfl⟩ :=
    written_sendThreadReply hadmits h
  set m := userMessage numbers (numbers.lastChangeSeq - 1) actor clientMsgId id body (some root)
    (some (p.lastThreadSeq + 1)) alsoInChannel with hm
  have hsame : SameButThreads l₁
      (l₁.followReply kind actor root p.senderId (p.lastThreadSeq + 1) mentions) :=
    sameButThreads_followReply actor root p.senderId (p.lastThreadSeq + 1) mentions
  have hmessages' : (l₁.followReply kind actor root p.senderId (p.lastThreadSeq + 1) mentions).messages
      = (l.replied numbers root m).messages := by
    rw [hsame]
    exact hmessages
  have hrows : (l₁.followReply kind actor root p.senderId (p.lastThreadSeq + 1) mentions).threadRows
      = updateRow l.threadRows p.threadRow.id .addReply ++ [m.threadRow] := by
    rw [show p.threadRow.id = root from hpid, ← threadRows_replied]
    unfold threadRows
    rw [hmessages']
  have hfresh : ∀ x ∈ l.threadRows, x.id ≠ m.threadRow.id := fresh_threadRow hid
  have htable := hs.table.reply (mem_threadRows hp) hproot hfresh
    (congrArg some hpid.symm) rfl rfl rfl rfl
  have hgrow : Grows l.threadRows
      (updateRow l.threadRows p.threadRow.id .addReply ++ [m.threadRow]) :=
    (Grows.refl.updateRow (f := ThreadRow.addReply) (fun _ => rfl) fun _ => Nat.le_succ _).append _
  have hroot : p.threadRow.addReply
      ∈ updateRow l.threadRows p.threadRow.id .addReply ++ [m.threadRow] :=
    mem_append_left _ (mem_updateRow.mpr ⟨p.threadRow, mem_threadRows hp, if_pos rfl⟩)
  have hpos := positioned_followReply kind p.senderId mentions hmember (hts ▸ hs.positions.grow hgrow) hroot (show p.threadRow.addReply.id = root from hpid) rfl
    fun q hq hqid => htable.eq_of_id hq hroot (hqid.trans hpid.symm)
  have hafter := afterReply_followReply kind root p.senderId (p.lastThreadSeq + 1) mentions hmember
  rw [hts] at hafter
  refine ⟨⟨⟨?_, ?_⟩, hafter.forward⟩, ?_⟩
  · rw [hrows]
    exact htable
  · rw [hrows]
    exact hpos
  · rw [hmessages']
    refine ⟨{ p with
      lastThreadSeq := p.lastThreadSeq + 1
      threadReplyCount := p.threadReplyCount + 1
      changeSeq := numbers.lastChangeSeq }, ?_, hpid, m, ?_, rfl, rfl, rfl, hafter⟩
    · exact mem_append_left _ (List.mem_map.mpr ⟨p, hp, if_pos hpid⟩)
    · exact mem_append_right _ (.head _)

/-- **What a transaction that writes messages does to the threads.** -/
theorem keepsThreads_written (hadmits : l.admits w = true)
    (h : l.written kind numbers w = some l') : KeepsThreads l l' := by
  cases w with
  | sendMessage =>
    obtain ⟨l₁, hl₁, rfl⟩ := map_eq_some_iff.mp h
    obtain ⟨rfl, hid, -⟩ := createMessage_eq_some hl₁
    exact .post hs hid rfl rfl rfl rfl rfl
  | sendThreadReply =>
    exact (replied_of_written hs hadmits h).keeps
  | editMessage message =>
    cases h
    exact .touch hs message fun _ => rfl
  | touchMessage _ message =>
    cases h
    exact .touch hs message fun _ => rfl
  | touchHuddleMessage message =>
    cases h
    exact .touch hs message fun _ => rfl
  | deleteMessage message =>
    have hmessage : ∃ m ∈ l.messages, l.getMessage message = some m ∧ m.id = message ∧
        m.deleted = false := by
      simp only [admits] at hadmits
      obtain ⟨m, hm, hif⟩ := (Option.any_eq_true _ _).mp hadmits
      obtain ⟨hmem, hid⟩ := mem_of_getMessage hm
      refine ⟨m, hmem, hm, hid, ?_⟩
      simp only [Bool.and_eq_true, Bool.not_eq_true'] at hif
      exact hif.2
    obtain ⟨m, hmem, hget, hid, hdeleted⟩ := hmessage
    cases hroot : m.threadRootId with
    | none =>
      simp only [written, hget, bind_some, hroot] at h
      cases h
      have hrows := threadRows_updateMessage (l := { l with room := numbers }) message
        (f := fun m => { m with
          body := ""
          deleted := true
          changeSeq := numbers.lastChangeSeq }) (g := ThreadRow.delete) fun _ => rfl
      refine ⟨⟨?_, ?_⟩, .refl⟩
      · rw [hrows, ← hid]
        exact hs.table.delete (mem_threadRows hmem) hdeleted hroot
      · rw [hrows]
        exact hs.positions.grow
          (Grows.refl.updateRow (f := ThreadRow.delete) (fun _ => rfl) fun _ => le_rfl)
    | some root =>
      simp only [written, hget, bind_some, hroot] at h
      cases h
      have hrows := (threadRows_updateMessage
          (l := { l with room := numbers }.updateMessage message fun m => { m with
            body := ""
            deleted := true
            changeSeq := numbers.lastChangeSeq - 1 }) root
          (f := fun m => { m with
            threadReplyCount := m.threadReplyCount - 1
            changeSeq := numbers.lastChangeSeq }) (g := ThreadRow.removeReply) fun _ => rfl).trans
        (congrArg (fun rows => updateRow rows root .removeReply)
          (threadRows_updateMessage (l := { l with room := numbers }) message
            (g := ThreadRow.delete) fun _ => rfl))
      refine ⟨⟨?_, ?_⟩, .refl⟩
      · rw [hrows, ← hid]
        exact hs.table.deleteReply (mem_threadRows hmem) hdeleted hroot
      · rw [hrows]
        exact hs.positions.grow
          ((Grows.refl.updateRow (f := ThreadRow.delete) (fun _ => rfl) fun _ => le_rfl).updateRow
            (f := ThreadRow.removeReply) (fun _ => rfl) fun _ => le_rfl)
  | writeSystemMessage =>
    obtain ⟨rfl, hid, -⟩ := createMessage_eq_some h
    exact .post hs hid rfl rfl rfl rfl rfl
  | writeHuddleMessage =>
    obtain ⟨l₁, hl₁, rfl⟩ := map_eq_some_iff.mp h
    obtain ⟨rfl, hid, -⟩ := createMessage_eq_some hl₁
    refine .post hs hid rfl rfl rfl ?_ ?_
    · split <;> rfl
    · split <;> rfl

theorem keepsThreads_perform (h : l.perform kind w = some l') : KeepsThreads l l' := by
  obtain ⟨numbers, hadmits, -, hwritten⟩ := perform_eq_some h
  exact keepsThreads_written hs hadmits hwritten

theorem keepsThreads_logged {subject id : Ulid} {type : SystemEventType} (h : l.logged kind subject clientMsgId id type = some l') :
    l'.ThreadSound ∧ l'.threadMembers = l.threadMembers := by
  obtain ⟨rfl, hid, -⟩ := createMessage_eq_some h
  exact ⟨hs.post hid rfl rfl rfl rfl rfl, rfl⟩

omit hs

theorem threadMembers_addRoomMember (userId : Ulid) :
    (l.addRoomMember userId).threadMembers = l.threadMembers := by
  unfold addRoomMember
  split <;> rfl

include hs

theorem ThreadSound.addRoomMember (userId : Ulid) : (l.addRoomMember userId).ThreadSound := by
  refine hs.keep ?_ (threadMembers_addRoomMember userId)
  unfold RoomLedger.addRoomMember
  split <;> rfl

theorem keepsThreads_deleteRoomMember (userId : Ulid) :
    KeepsThreads l (l.deleteRoomMember userId) where
  sound := ⟨hs.table, hs.positions.of_sublist filter_sublist⟩
  forward := .of_sublist filter_sublist

theorem keepsThreads_joinRoom {id : Ulid}
    (h : l.joinRoom kind userId clientMsgId id = some l') : KeepsThreads l l' := by
  have hadd := hs.addRoomMember userId
  unfold joinRoom at h
  split at h
  · cases h
  · split at h
    · rw [← some.inj h]
      refine ⟨hadd, ?_⟩
      rw [threadMembers_addRoomMember]
      exact .refl
    · obtain ⟨hsound, hts⟩ := keepsThreads_logged hadd h
      refine ⟨hsound, ?_⟩
      rw [hts, threadMembers_addRoomMember]
      exact .refl

theorem keepsThreads_leaveRoom {id : Ulid} {removed : Bool}
    (h : l.leaveRoom kind userId clientMsgId id removed = some l') : KeepsThreads l l' := by
  have hdelete := keepsThreads_deleteRoomMember hs userId
  unfold leaveRoom at h
  by_cases hif : (l.isMember userId && decide (kind ≠ .roomDM)) = true
  · rw [if_pos hif] at h
    obtain ⟨hsound, hts⟩ := keepsThreads_logged hdelete.sound h
    refine ⟨hsound, ?_⟩
    rw [hts]
    exact hdelete.forward
  · rw [if_neg hif] at h
    cases h

theorem keepsThreads_setArchived {archived : Bool} {id : Ulid}
    (h : l.setArchived kind archived actor clientMsgId id = some l') : KeepsThreads l l' := by
  unfold setArchived at h
  split at h
  · cases h
  · obtain ⟨l₁, hlogged, rfl⟩ := map_eq_some_iff.mp h
    obtain ⟨hsound, hts⟩ := keepsThreads_logged hs hlogged
    refine ⟨hsound.keep rfl rfl, ?_⟩
    show Forward l.threadMembers l₁.threadMembers
    rw [hts]
    exact .refl

/-- A thread is read up to one of its replies. -/
theorem keepsThreads_advanceThreadRead (root userId : Ulid) (seq : ℕ) :
    KeepsThreads l (l.advanceThreadRead root userId seq) := by
  set n := ((((l.replies root).filter (fun m => decide (m.seq ≤ seq))).getLast?.bind
    LedgerMessage.threadSeq).getD 0) with hn
  have hle : ∀ p ∈ l.threadRows, p.id = root → n ≤ p.lastThreadSeq := by
    intro p hp hid
    cases hlast : ((l.replies root).filter (fun m => decide (m.seq ≤ seq))).getLast? with
    | none =>
      rw [hn, hlast]
      exact Nat.zero_le _
    | some m =>
      have hmem : m ∈ l.replies root := mem_of_mem_filter (mem_of_getLast? hlast)
      have hrow : m.threadSeq ∈ (repliesOf l.threadRows p.id).map ThreadRow.threadSeq := by
        rw [repliesOf_threadRows, List.map_map, hid]
        exact List.mem_map.mpr ⟨m, hmem, rfl⟩
      rw [hs.table.numbered p hp] at hrow
      obtain ⟨i, hi, hseq⟩ := List.mem_map.mp hrow
      have hi := mem_range.mp hi
      rw [hn, hlast, bind_some, ← hseq, getD_some]
      exact hi
  refine ⟨⟨hs.table, ?_⟩, ?_⟩
  · show Positioned l.threadRows (advanceKey l.threadMembers (root, userId) n)
    exact hs.positions.advance hle
  · show Forward l.threadMembers (advanceKey l.threadMembers (root, userId) n)
    exact forward_advanceKey

theorem keepsThreads_followFromNow
    (h : l.followFromNow userId root = some l') : KeepsThreads l l' := by
  unfold followFromNow at h
  cases hroot : l.getMessage root with
  | none => simp [hroot] at h
  | some m =>
    simp only [hroot] at h
    obtain ⟨hm, rfl⟩ := mem_of_getMessage hroot
    split at h
    · rw [← some.inj h]
      unfold followThread
      by_cases hif : (l.isMember userId && !l.follows m.id userId) = true
      · have hnew : (m.id, userId) ∉ l.threadMembers.map ThreadMember.key := by
          rw [← follows_iff]
          simp only [Bool.and_eq_true, Bool.not_eq_true'] at hif
          simp [hif.2]
        rw [if_pos hif]
        refine ⟨⟨hs.table, ?_⟩, forward_append fun tm htm => ?_⟩
        · exact hs.positions.follow (p := m.threadRow) (mem_threadRows hm) le_rfl hnew
        · rw [mem_singleton.mp htm]
          exact hnew
      · rw [if_neg hif]
        exact .keep hs rfl rfl
    · cases h

end RoomLedger

open RoomLedger

/-! ## Runs -/

namespace RoomRun

variable {kind : RoomKind} {s s' : RoomRun} {a : RoomRunAction}

/-- **What a step does to the threads.** -/
theorem keepsThreads_act (hs : s.ledger.ThreadSound) (h : act kind s a = some s') :
    s.ledger.KeepsThreads s'.ledger := by
  cases a with
  | write =>
    obtain ⟨l', hl', rfl⟩ := map_eq_some_iff.mp h
    exact keepsThreads_perform hs hl'
  | joinRoom =>
    obtain ⟨l', hl', rfl⟩ := map_eq_some_iff.mp h
    exact keepsThreads_joinRoom hs hl'
  | leaveRoom =>
    obtain ⟨l', hl', rfl⟩ := map_eq_some_iff.mp h
    exact keepsThreads_leaveRoom hs hl'
  | leaveWorkspace userId =>
    cases h
    exact keepsThreads_deleteRoomMember hs userId
  | setArchived =>
    obtain ⟨l', hl', rfl⟩ := map_eq_some_iff.mp h
    exact keepsThreads_setArchived hs hl'
  | markThreadRead userId root seq =>
    cases h
    exact keepsThreads_advanceThreadRead hs root userId seq
  | followThread =>
    obtain ⟨l', hl', rfl⟩ := map_eq_some_iff.mp h
    exact keepsThreads_followFromNow hs hl'
  | markRoomRead =>
    obtain ⟨rm, hrm, rfl⟩ := map_eq_some_iff.mp h
    exact .keep hs rfl rfl
  | marked i =>
    unfold act at h
    cases hi : s.pending[i]? with
    | none => simp [hi] at h
    | some =>
      simp only [hi] at h
      cases h
      unfold mark
      split
      · exact .keep hs rfl rfl
      · exact .keep hs rfl rfl

/-- The replies of a thread, in the terms of the table. -/
theorem map_replies {l : RoomLedger} {root : LedgerMessage} (hs : l.ThreadSound)
    (hroot : root ∈ l.messages) :
    (l.replies root.id).map LedgerMessage.threadSeq
      = (List.range root.lastThreadSeq).map fun i => some (i + 1) := by
  have hnumbered := hs.table.numbered root.threadRow (mem_threadRows hroot)
  rw [repliesOf_threadRows, List.map_map] at hnumbered
  exact hnumbered

theorem threadReplyCount_eq {l : RoomLedger} {root : LedgerMessage} (hs : l.ThreadSound)
    (hroot : root ∈ l.messages) :
    root.threadReplyCount = ((l.replies root.id).filter (fun m => !m.deleted)).length := by
  have hcounted := hs.table.counted root.threadRow (mem_threadRows hroot)
  rw [repliesOf_threadRows, countP_map, countP_eq_length_filter] at hcounted
  exact hcounted

theorem length_unreadReplies {l : RoomLedger} {root : LedgerMessage} (hs : l.ThreadSound)
    (hroot : root ∈ l.messages) {n : ℕ} (hn : n ≤ root.lastThreadSeq) :
    (l.unreadReplies root.id n).length + n = root.lastThreadSeq := by
  have hafter := hs.table.length_filter_after (mem_threadRows hroot) hn
  rw [repliesOf_threadRows, List.filter_map, length_map] at hafter
  exact hafter

theorem threadSound_of_init (h : (system kind).init s) : s.ledger.ThreadSound := by
  rw [show s = ⟨.empty, [], []⟩ from h]
  refine ⟨⟨nodup_nil, ?_, ?_, ?_⟩, ⟨nodup_nil, ?_⟩⟩
  · exact nofun
  · exact nofun
  · exact nofun
  · exact nofun

/-- Messages come in the order of their numbers. -/
theorem pairwise_seq {l : RoomLedger} (hs : Counted kind l) :
    (l.messages.map LedgerMessage.seq).Pairwise (· < ·) := by
  rw [pairwise_iff_getElem]
  intro i j hi hj hij
  rw [length_map] at hi hj
  rw [getElem_map, getElem_map, (hs.getElem_messages (getElem?_eq_getElem hi)).1,
    (hs.getElem_messages (getElem?_eq_getElem hj)).1]
  omega

/-- **Right after a reply**, its sender has nothing unread, and who follows because of it
has the reply. -/
theorem unread_after_reply {l l' : RoomLedger} {root actor id : Ulid} (hs : l.ThreadSound)
    (h : RoomLedger.Replied l l' root actor id) :
    l'.follows root actor = true ∧ ∀ tm ∈ l'.threadMembers, tm.threadRootId = root →
      (tm.userId = actor → l'.unreadReplies root tm.lastReadThreadSeq = []) ∧
      (tm.userId ≠ actor → l.follows root tm.userId = false →
        (l'.unreadReplies root tm.lastReadThreadSeq).map LedgerMessage.id = [id]) := by
  obtain ⟨p, hp, hpid, m, hm, hmid, hmroot, hmseq, hafter⟩ := h.last
  have hs' := h.keeps.sound
  refine ⟨follows_iff.mpr hafter.sender, fun tm htm hroot => ?_⟩
  obtain ⟨q, hq, hqid, hqle⟩ := hs'.positions.read tm htm
  have hle : tm.lastReadThreadSeq ≤ p.lastThreadSeq := by
    have heq : q = p.threadRow := hs'.table.eq_of_id hq (mem_threadRows hp)
      (hqid.trans (hroot.trans hpid.symm))
    rw [heq] at hqle
    exact hqle
  have hlength := length_unreadReplies hs' hp hle
  rw [hpid] at hlength
  refine ⟨fun huser => ?_, fun huser hnew => ?_⟩
  · have hread := hafter.read tm htm (Prod.mk_inj.mpr ⟨hroot, huser⟩)
    exact length_eq_zero_iff.mp (by omega)
  · have hkey : tm.key ∉ l.threadMembers.map ThreadMember.key := by
      rw [show tm.key = (root, tm.userId) from Prod.mk_inj.mpr ⟨hroot, rfl⟩, ← follows_iff, hnew]
      simp
    have hposition := hafter.follower tm htm hkey fun heq => huser (Prod.mk_inj.mp heq).2
    have hpos : 0 < p.lastThreadSeq := by
      have hseq : m.threadSeq ∈ (l'.replies p.id).map LedgerMessage.threadSeq := by
        refine List.mem_map_of_mem (mem_filter.mpr ⟨hm, ?_⟩)
        rw [hmroot, hpid]
        exact decide_eq_true rfl
      rw [map_replies hs' hp, hmseq] at hseq
      obtain ⟨i, -, hi⟩ := List.mem_map.mp hseq
      have hi := some.inj hi
      omega
    have hone : (l'.unreadReplies root tm.lastReadThreadSeq).length = 1 := by omega
    have hmem : m ∈ l'.unreadReplies root tm.lastReadThreadSeq := by
      refine mem_filter.mpr ⟨mem_filter.mpr ⟨hm, decide_eq_true hmroot⟩, ?_⟩
      rw [hmseq, any_some, decide_eq_true_eq]
      omega
    obtain ⟨x, hx⟩ := length_eq_one_iff.mp hone
    rw [hx] at hmem ⊢
    rw [← mem_singleton.mp hmem, map_singleton, hmid]

/-- **Thread counters stay exact.** In every run the replies of a thread are numbered from
one on in the order in which they were sent, the root shows how many are not deleted, and who
follows has read no further than the last one and has as many unread as there are after the
position, deleted ones included. A position only moves forward. Right after a reply its
sender has none unread, and who follows because of it has just the reply. -/
theorem thread_counts (h : (system kind).Reachable s) : (∀ root ∈ s.ledger.messages,
      (s.ledger.replies root.id).map LedgerMessage.threadSeq
        = ((List.range root.lastThreadSeq).map fun i => some (i + 1)) ∧
      ((s.ledger.replies root.id).map LedgerMessage.seq).Pairwise (· < ·) ∧
      root.threadReplyCount = ((s.ledger.replies root.id).filter (fun m => !m.deleted)).length ∧
      0 ≤ root.threadReplyCount ∧
      ∀ tm ∈ s.ledger.threadMembers, tm.threadRootId = root.id →
        tm.lastReadThreadSeq ≤ root.lastThreadSeq ∧
        (root.lastThreadSeq : ℤ) - tm.lastReadThreadSeq
          = (s.ledger.unreadReplies root.id tm.lastReadThreadSeq).length) ∧
    (∀ a s', (system kind).step s a = some s' →
      ∀ tm ∈ s.ledger.threadMembers, ∀ tm' ∈ s'.ledger.threadMembers,
        tm.threadRootId = tm'.threadRootId → tm.userId = tm'.userId →
          tm.lastReadThreadSeq ≤ tm'.lastReadThreadSeq) ∧
    ∀ actor clientMsgId id root body alsoInChannel mentions s',
      (system kind).step s (.write (.sendThreadReply actor clientMsgId id root body alsoInChannel
        mentions)) = some s' →
      s'.ledger.follows root actor = true ∧ ∀ tm ∈ s'.ledger.threadMembers, tm.threadRootId = root →
        (tm.userId = actor → s'.ledger.unreadReplies root tm.lastReadThreadSeq = []) ∧
        (tm.userId ≠ actor → s.ledger.follows root tm.userId = false →
          (s'.ledger.unreadReplies root tm.lastReadThreadSeq).map LedgerMessage.id = [id]) := by
  obtain ⟨hsound, hs⟩ := h.invariant (I := fun s => s.Sound kind ∧ s.ledger.ThreadSound)
    (fun s hinit => ⟨sound_of_init hinit, threadSound_of_init hinit⟩)
    fun s a s' hs _ hstep => ⟨hs.1.act hstep, (keepsThreads_act hs.2 hstep).sound⟩
  refine ⟨fun root hroot => ?_, fun a s' hstep tm htm tm' htm' hthread huser => ?_,
    fun actor clientMsgId id root body alsoInChannel mentions s' hstep => ?_⟩
  · have hshown := threadReplyCount_eq hs hroot
    refine ⟨map_replies hs hroot, ?_, hshown, ?_, fun tm htm htmroot => ?_⟩
    · exact (pairwise_seq hsound.ledger.counted).sublist (filter_sublist.map _)
    · rw [hshown]
      exact Int.natCast_nonneg _
    · obtain ⟨p, hp, hpid, hle⟩ := hs.positions.read tm htm
      have heq : p = root.threadRow := hs.table.eq_of_id hp (mem_threadRows hroot)
        (hpid.trans htmroot)
      rw [heq] at hle
      have hle : tm.lastReadThreadSeq ≤ root.lastThreadSeq := hle
      have hlength := length_unreadReplies hs hroot hle
      exact ⟨hle, by omega⟩
  · exact (keepsThreads_act hs hstep).forward.le hs.positions.keys htm htm'
      (Prod.mk_inj.mpr ⟨hthread, huser⟩)
  · obtain ⟨l', hl', rfl⟩ := map_eq_some_iff.mp hstep
    obtain ⟨numbers, hadmits, -, hwritten⟩ := perform_eq_some hl'
    exact unread_after_reply hs (replied_of_written hs hadmits hwritten)

/-- Two mentions in a thread: the first is of somebody who does not follow it yet. -/
theorem thread_counts_mentions : ∃ s, (system .roomPublic).Reachable s ∧
      s.ledger.threadMembers.map (fun tm => (tm.userId, tm.lastReadThreadSeq))
        = [(2, 2), (1, 0), (3, 0)] ∧
      ∀ root ∈ s.ledger.messages,
        root.threadReplyCount = ((s.ledger.replies root.id).filter (fun m => !m.deleted)).length := by
  have hrun : ((system .roomPublic).run ⟨.empty, [], []⟩
      [.joinRoom 1 71 81, .joinRoom 2 72 82, .joinRoom 3 73 83,
        .write (.sendMessage 1 74 84 "hello"),
        .write (.sendThreadReply 2 75 85 84 "re" false ⟨false, [3], []⟩),
        .write (.sendThreadReply 2 76 86 84 "re" false ⟨false, [3], []⟩),
        .write (.deleteMessage 85)]).any
      (fun s => decide (s.ledger.threadMembers.map (fun tm => (tm.userId, tm.lastReadThreadSeq))
        = [(2, 2), (1, 0), (3, 0)])) = true := by decide +kernel
  obtain ⟨s, hreachable, htest⟩ := TransitionSystem.exists_of_run hrun rfl
  exact ⟨s, hreachable, of_decide_eq_true htest,
    fun root hroot => ((thread_counts hreachable).1 root hroot).2.2.1⟩

end RoomRun

end Hibari
