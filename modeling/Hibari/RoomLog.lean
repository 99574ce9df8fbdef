import Hibari.ChangeLog
import Hibari.MessageRules

/-!
# A room's changes on the server, and the pages read from it

A room numbers its changes: posting, editing, reacting to, pinning or
deleting a message takes the next `change_seq`, writes the row of exactly one
message, and commits under the lock of the room's row, so changes commit in
the order of their numbers and none is skipped. What a statement reads is
therefore the room as some prefix of the log left it.

`RoomLog` is the log, with what every write keeps as a field: the number, the
place of a message that exists, and a fresh position for a new one. From that
follow the facts that a reader of the room relies on: a number names one
change (`WellFormed.eq_of_changeSeq`), a position one message
(`WellFormed.id_eq_of_seq`), a message has one place
(`WellFormed.place_eq`), and positions are given out in order
(`WellFormed.exists_posted`). `rowsAt` is the table that a prefix left: of
each message the newest version.
-/

namespace Hibari

open List

/-! ## The log -/

/-- **What may be the next change of a room**: it takes the next number; a
message that exists keeps its place; a new message gets a position above all
positions given out. -/
structure Admissible (changes : List Message) (m : Message) : Prop where
  number : m.changeSeq = changes.length + 1
  place : ∀ x ∈ changes, x.id = m.id → x.place = m.place
  fresh : (∀ x ∈ changes, x.id ≠ m.id) → 0 < m.seq ∧ ∀ x ∈ changes, x.seq < m.seq

instance (changes : List Message) (m : Message) : Decidable (Admissible changes m) :=
  decidable_of_iff
    (m.changeSeq = changes.length + 1 ∧ (∀ x ∈ changes, x.id = m.id → x.place = m.place) ∧
      ((∀ x ∈ changes, x.id ≠ m.id) → 0 < m.seq ∧ ∀ x ∈ changes, x.seq < m.seq))
    ⟨fun h => ⟨h.1, h.2.1, h.2.2⟩, fun h => ⟨h.number, h.place, h.fresh⟩⟩

/-- Every entry was admissible when it was written. -/
inductive WellFormed : List Message → Prop
  | nil : WellFormed []
  | snoc {changes : List Message} {m : Message} :
      WellFormed changes → Admissible changes m → WellFormed (changes ++ [m])

/-- **The changes of a room**, in the order they committed. Entry number `k`
is the version that change `k` made of its message. -/
structure RoomLog where
  changes : List Message
  wellFormed : WellFormed changes

namespace RoomLog

/-- A room in which nothing happened yet. -/
def empty : RoomLog := ⟨[], .nil⟩

/-- Commit a change, if it is one the server would write. -/
def commit (log : RoomLog) (m : Message) : Option RoomLog :=
  if h : Admissible log.changes m then some ⟨log.changes ++ [m], log.wellFormed.snoc h⟩
  else none

/-- How many changes have committed: the room's `last_change_seq`. -/
def length (log : RoomLog) : ℕ := log.changes.length

/-- Change number `k` was to the message at `p`. -/
def touch (log : RoomLog) (k : ℕ) (p : Place) : Prop := ⟨p, k⟩ ∈ log.changes.map Message.stamp

end RoomLog

namespace WellFormed

variable {changes : List Message} {m x y : Message}

/-- The last entry was admissible after the others. -/
theorem snoc_inv (h : WellFormed (changes ++ [m])) : WellFormed changes ∧ Admissible changes m := by
  generalize hl : changes ++ [m] = l at h
  cases h with
  | nil => exact absurd hl (append_ne_nil_of_right_ne_nil _ (cons_ne_nil _ _))
  | snoc hw ha =>
    obtain ⟨rfl, hm⟩ := append_inj' hl rfl
    exact ⟨hw, (List.cons.inj hm).1 ▸ ha⟩

variable (h : WellFormed changes)
include h

/-- The numbers are those of the places in the list. -/
theorem changeSeq_bounds (hx : x ∈ changes) : 0 < x.changeSeq ∧ x.changeSeq ≤ changes.length := by
  induction h with
  | nil => cases hx
  | snoc _ ha ih =>
    rw [length_append, length_singleton]
    cases mem_append.mp hx with
    | inl hx' => exact ⟨(ih hx').1, (ih hx').2.trans (Nat.le_succ _)⟩
    | inr hx' =>
      rw [mem_singleton.mp hx', ha.number]
      exact ⟨Nat.succ_pos _, le_rfl⟩

/-- A prefix of the log holds the changes up to its length. -/
theorem mem_take_iff (T : ℕ) : x ∈ changes.take T ↔ x ∈ changes ∧ x.changeSeq ≤ T := by
  induction h with
  | nil => simp
  | @snoc cs m hw ha ih =>
    rw [take_append, mem_append, mem_append, ih, mem_singleton]
    have hm : x ∈ List.take (T - cs.length) [m] ↔ x = m ∧ m.changeSeq ≤ T := by
      rw [ha.number]
      cases hT : T - cs.length with
      | _ => simp; omega
    rw [hm]
    constructor
    · rintro (⟨hx, hle⟩ | ⟨rfl, hle⟩)
      · exact ⟨.inl hx, hle⟩
      · exact ⟨.inr rfl, hle⟩
    · rintro ⟨hx | rfl, hle⟩
      · exact .inl ⟨hx, hle⟩
      · exact .inr ⟨rfl, hle⟩

/-- **A message has one place.** -/
theorem place_eq (hx : x ∈ changes) (hy : y ∈ changes) (hid : x.id = y.id) : x.place = y.place := by
  induction h with
  | nil => cases hx
  | snoc _ ha ih =>
    rcases mem_append.mp hx with hx' | hx' <;> rcases mem_append.mp hy with hy' | hy'
    · exact ih hx' hy'
    · obtain rfl := mem_singleton.mp hy'
      exact ha.place x hx' hid
    · obtain rfl := mem_singleton.mp hx'
      exact (ha.place y hy' hid.symm).symm
    · rw [mem_singleton.mp hx', mem_singleton.mp hy']

omit h

/-- The last entry has a number of its own. -/
theorem lt_of_mem_of_snoc (h : WellFormed (changes ++ [m]))
    (hx : x ∈ changes) : x.changeSeq < m.changeSeq := by
  obtain ⟨hw, ha⟩ := h.snoc_inv
  rw [ha.number]
  exact Nat.lt_succ_of_le (hw.changeSeq_bounds hx).2

include h

/-- **A number names one change.** -/
theorem eq_of_changeSeq (hx : x ∈ changes)
    (hy : y ∈ changes) (hk : x.changeSeq = y.changeSeq) : x = y := by
  induction h with
  | nil => cases hx
  | snoc hw ha ih =>
    rcases mem_append.mp hx with hx' | hx' <;> rcases mem_append.mp hy with hy' | hy'
    · exact ih hx' hy'
    · obtain rfl := mem_singleton.mp hy'
      exact absurd hk ((hw.snoc ha).lt_of_mem_of_snoc hx').ne
    · obtain rfl := mem_singleton.mp hx'
      exact absurd hk.symm ((hw.snoc ha).lt_of_mem_of_snoc hy').ne
    · rw [mem_singleton.mp hx', mem_singleton.mp hy']

/-- No change is written twice. -/
theorem nodup : changes.Nodup := by
  induction h with
  | nil => exact nodup_nil
  | snoc hw ha ih =>
    refine nodup_append.mpr ⟨ih, nodup_singleton _, fun x hx y hy => ?_⟩
    rw [mem_singleton.mp hy]
    exact fun hxm => ((hw.snoc ha).lt_of_mem_of_snoc hx).ne (congrArg Message.changeSeq hxm)

/-- Each message was posted by some change, and got a position above those of
all messages changed before. -/
theorem exists_posted (hy : y ∈ changes) :
    ∃ z ∈ changes, z.id = y.id ∧ ∀ w ∈ changes, w.changeSeq < z.changeSeq → w.seq < y.seq := by
  induction h generalizing y with
  | nil => cases hy
  | @snoc cs m hw ha ih =>
    -- the changes before one of `cs` are all in `cs`
    have hbefore : ∀ z ∈ cs, ∀ w ∈ cs ++ [m], w.changeSeq < z.changeSeq → w ∈ cs := by
      intro z hz w hwm hlt
      rcases mem_append.mp hwm with hw' | hw'
      · exact hw'
      · obtain rfl := mem_singleton.mp hw'
        exact absurd hlt ((hw.snoc ha).lt_of_mem_of_snoc hz).le.not_gt
    have hold : ∀ y' ∈ cs, y'.place = y.place → ∃ z ∈ cs ++ [m], z.id = y.id ∧
        ∀ w ∈ cs ++ [m], w.changeSeq < z.changeSeq → w.seq < y.seq := by
      intro y' hy' hp
      obtain ⟨z, hz, hid, hmin⟩ := ih hy'
      refine ⟨z, mem_append_left _ hz, hid.trans (congrArg Place.id hp), fun w hwm hlt => ?_⟩
      have hlt' := hmin w (hbefore z hz w hwm hlt) hlt
      rwa [show y'.seq = y.seq from congrArg Place.seq hp] at hlt'
    rcases mem_append.mp hy with hy' | hy'
    · exact hold y hy' rfl
    · obtain rfl := mem_singleton.mp hy'
      by_cases hnew : ∀ x ∈ cs, x.id ≠ y.id
      · refine ⟨y, mem_append_right _ (mem_singleton_self y), rfl, fun w hwm hlt => ?_⟩
        rcases mem_append.mp hwm with hw' | hw'
        · exact (ha.fresh hnew).2 w hw'
        · exact absurd hlt (mem_singleton.mp hw' ▸ lt_irrefl _)
      · obtain ⟨x, hx, hid⟩ : ∃ x ∈ cs, x.id = y.id := by simpa using hnew
        exact hold x hx (ha.place x hx hid)

/-- A position is given out once. -/
theorem id_eq_of_seq (hx : x ∈ changes)
    (hy : y ∈ changes) (hseq : x.seq = y.seq) : x.id = y.id := by
  obtain ⟨z, hz, hzid, hzmin⟩ := h.exists_posted hx
  obtain ⟨w, hw, hwid, hwmin⟩ := h.exists_posted hy
  have hzseq : z.seq = x.seq := congrArg Place.seq (h.place_eq hz hx hzid)
  have hwseq : w.seq = y.seq := congrArg Place.seq (h.place_eq hw hy hwid)
  -- neither was posted before the other
  rcases Nat.lt_trichotomy z.changeSeq w.changeSeq with hlt | heq | hlt
  · exact absurd (hwmin z hz hlt) (by rw [hzseq, hseq]; exact lt_irrefl _)
  · rw [← hzid, h.eq_of_changeSeq hz hw heq, hwid]
  · exact absurd (hzmin w hw hlt) (by rw [hwseq, hseq]; exact lt_irrefl _)

end WellFormed

/-! ## The table -/

/-- The newest version of each message. -/
def newestVersions (changes : List Message) : List Message :=
  changes.filter (fun m => changes.all (fun x => decide (x.id = m.id → x.changeSeq ≤ m.changeSeq)))

namespace RoomLog

variable (log : RoomLog)

/-- The rows of the room's messages once the first `T` changes committed. -/
def rowsAt (T : ℕ) : List Message := newestVersions (log.changes.take T)

theorem mem_rowsAt {T : ℕ} {m : Message} : m ∈ log.rowsAt T ↔ m ∈ log.changes ∧ m.changeSeq ≤ T ∧
      ∀ x ∈ log.changes, x.changeSeq ≤ T → x.id = m.id → x.changeSeq ≤ m.changeSeq := by
  unfold rowsAt newestVersions
  simp only [mem_filter, all_eq_true, decide_eq_true_eq, log.wellFormed.mem_take_iff]
  exact ⟨fun h => ⟨h.1.1, h.1.2, fun x hx hT => h.2 x ⟨hx, hT⟩⟩,
    fun h => ⟨⟨h.1, h.2.1⟩, fun x hx => h.2.2 x hx.1 hx.2⟩⟩

/-- **The table is up to date**: a change that committed is in the row of its
message, or a later one is. -/
theorem exists_mem_rowsAt {T k : ℕ} {p : Place} (ht : log.touch k p) (hk : k ≤ T) :
    ∃ m ∈ log.rowsAt T, m.place = p ∧ k ≤ m.changeSeq := by
  obtain ⟨x, hx, hstamp⟩ := mem_map.mp ht
  have hxp : x.place = p := congrArg Stamp.place hstamp
  have hxk : x.changeSeq = k := congrArg Stamp.changeSeq hstamp
  -- the newest of the versions committed by then
  let versions := (log.changes.filter (fun y => decide (y.id = x.id ∧ y.changeSeq ≤ T))).toFinset
  have hmem : ∀ y, y ∈ versions ↔ y ∈ log.changes ∧ y.id = x.id ∧ y.changeSeq ≤ T := by
    intro y
    simp [versions]
  obtain ⟨m, hm, hmax⟩ := versions.exists_max_image Message.changeSeq
    ⟨x, (hmem x).mpr ⟨hx, rfl, hxk.trans_le hk⟩⟩
  obtain ⟨hmc, hmid, hmT⟩ := (hmem m).mp hm
  refine ⟨m, log.mem_rowsAt.mpr ⟨hmc, hmT, fun y hy hyT hyid => ?_⟩, ?_, ?_⟩
  · exact hmax y ((hmem y).mpr ⟨hy, hyid.trans hmid, hyT⟩)
  · rw [log.wellFormed.place_eq hmc hx hmid, hxp]
  · rw [← hxk]
    exact hmax x ((hmem x).mpr ⟨hx, rfl, hxk.trans_le hk⟩)

/-- A position has at most one row. -/
theorem eq_of_mem_rowsAt {T : ℕ} {r m : Message} (hr : r ∈ log.rowsAt T)
    (hm : m ∈ log.rowsAt T) (hseq : r.seq = m.seq) : r = m := by
  obtain ⟨hrc, hrT, hrmax⟩ := log.mem_rowsAt.mp hr
  obtain ⟨hmc, hmT, hmmax⟩ := log.mem_rowsAt.mp hm
  have hid := log.wellFormed.id_eq_of_seq hrc hmc hseq
  exact log.wellFormed.eq_of_changeSeq hrc hmc
    (le_antisymm (hmmax r hrc hrT hid) (hrmax m hmc hmT hid.symm))

theorem nodup_rowsAt (T : ℕ) : (log.rowsAt T).Nodup :=
  (log.wellFormed.nodup.sublist (take_sublist T _)).filter _

end RoomLog

end Hibari
