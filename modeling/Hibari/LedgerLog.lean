import Hibari.ChangeNumbers
import Hibari.SendOnce

/-!
# The server's rows are a log

What a client keeps of a room is proved against a log of versions, each admissible after those before
it. The server has rows instead, which transactions write that run at once and may fail, and several
versions come with one commit. **The rows are those that a log leaves, and each commit appends to it**
(`ledger_refines_log`): the versions are numbered, what a message is inserted with stays, and a message
has a version before anything that was inserted later has one (`Placed`).
-/

namespace Hibari

open List

theorem WellFormed.numbers {changes : List Message} (h : WellFormed changes) :
    changes.map Message.changeSeq = range' 1 changes.length := by
  induction h with
  | nil => rfl
  | snoc _ hm ih =>
    rw [map_append, ih, length_append, length_singleton, range'_1_concat, Nat.add_comm 1, ← hm.number]
    rfl

namespace LedgerService

variable {kind : RoomKind} {s s' : LedgerService} {a : LedgerServiceAction} {v w : LedgerMessage}
  {changes : List Message}

/-- **Versions and their places**: a version has what its message was inserted with, and a message
has a version before all versions of what was inserted later. -/
structure Placed (s : LedgerService) : Prop where
  frame : ∀ v ∈ s.versions, v.frame ∈ s.ledger.frames
  earlier : ∀ v ∈ s.versions, ∀ w ∈ s.versions, v.seq < w.seq →
    ∃ u ∈ s.versions, u.id = v.id ∧ u.changeSeq < w.changeSeq

/-- A message is where its position says. -/
theorem Placed.frame_at (h : s.Placed) (hs : s.InOrder kind) (hv : v ∈ s.versions) :
    ∃ i, s.ledger.frames[i]? = some v.frame ∧ v.seq = i + 1 := by
  obtain ⟨i, hi⟩ := getElem?_of_mem (h.frame v hv)
  exact ⟨i, hi, (hs.sound.counted.frame i _ hi).1⟩

/-- Its id and its position name a message. -/
theorem Placed.frame_eq (h : s.Placed) (hs : s.InOrder kind) (hv : v ∈ s.versions)
    (hw : w ∈ s.versions) (hsame : v.id = w.id ∨ v.seq = w.seq) : v.frame = w.frame := by
  rcases hsame with hid | hseq
  · have hids : (s.ledger.frames.map MessageFrame.id).Nodup := by
      simpa [RoomLedger.frames, LedgerMessage.frame, Function.comp_def] using
        RoomLedger.ids_nodup hs.threadSound
    exact inj_on_of_nodup_map hids (h.frame v hv) (h.frame w hw) hid
  · obtain ⟨i, hi, hiseq⟩ := h.frame_at hs hv
    obtain ⟨j, hj, hjseq⟩ := h.frame_at hs hw
    obtain rfl := Nat.succ.inj (hiseq.symm.trans (hseq.trans hjseq))
    exact Option.some.inj (hi.symm.trans hj)

theorem Placed.commit (h : s.Placed) (hs : s.InOrder kind) (hs' : s'.InOrder kind)
    (hversions : s.Versioned) (hcommits : Commits kind s a s') : s'.Placed := by
  have hcommit := commit_of_commits hs hversions hcommits
  -- what is inserted is positioned last
  obtain ⟨p, hadds⟩ : ∃ p, s.ledger.Adds s'.ledger p := by
    cases hcommits with
    | write _ hl => exact ⟨_, RoomLedger.adds_written hl⟩
    | other hrows _ hrun => exact (RoomLedger.adds_env hrows hrun).imp fun _ h => h.1
  have hframe : ∀ v ∈ s'.versions, v.frame ∈ s'.ledger.frames := by
    intro v hv
    rw [hcommit.versions] at hv
    rcases mem_append.mp hv with hv | hv
    · rw [hadds.frames]
      exact mem_append_left _ (h.frame v hv)
    · exact mem_map_of_mem (mem_filter.mp hv).1
  refine ⟨hframe, fun v hv w hw hlt => ?_⟩
  -- one message was inserted at most, and that is not before another
  have hold : v.frame ∈ s.ledger.frames := by
    obtain ⟨i, hi⟩ := getElem?_of_mem (hframe v hv)
    obtain ⟨j, hj⟩ := getElem?_of_mem (hframe w hw)
    have hij : i + 1 < j + 1 :=
      (hs'.sound.counted.frame i _ hi).1 ▸ (hs'.sound.counted.frame j _ hj).1 ▸ hlt
    have hjlt : j < _ := (List.getElem?_eq_some_iff.mp hj).1
    have hone : (p.map LedgerMessage.frame).toList.length ≤ 1 := by cases p <;> simp
    rw [hadds.frames, length_append] at hjlt
    rw [hadds.frames, getElem?_append_left (by omega)] at hi
    exact mem_of_getElem? hi
  obtain ⟨m, hm, heq⟩ := mem_map.mp hold
  have hmv := hversions.current m hm
  have hid : m.id = v.id := congrArg MessageFrame.id heq
  have hseq : m.seq = v.seq := congrArg MessageFrame.seq heq
  rw [hcommit.versions] at hw ⊢
  rcases mem_append.mp hw with hw | hw
  · obtain ⟨u, hu, huid, hbefore⟩ := h.earlier m hmv w hw (hseq ▸ hlt)
    exact ⟨u, mem_append_left _ hu, huid.trans hid, hbefore⟩
  · have hnumber := mem_range'_1.mp (hcommit.numbered.versions.mem_iff.mp (mem_map_of_mem hw))
    exact ⟨m, mem_append_left _ hmv, hid, (hversions.bounded m hm).trans_lt hnumber.1⟩

theorem placed_of_reachable (h : (system kind).Reachable s) : s.Logged kind ∧ s.Placed := by
  refine h.invariant (I := fun s => s.Logged kind ∧ s.Placed) ?_ fun s a s' hs _ hstep => ?_
  · rintro _ rfl
    exact ⟨logged_of_init rfl, nofun, nofun⟩
  · have hlogged := hs.1.act hstep
    refine ⟨hlogged, ?_⟩
    rcases act_cases hstep with hcommits | ⟨t, rfl, -⟩ | ⟨i, t, t', -, -, rfl, -⟩ | hreads
    · exact hs.2.commit hs.1.inOrder hlogged.inOrder hs.1.versioned hcommits
    · exact ⟨hs.2.frame, hs.2.earlier⟩
    · exact ⟨hs.2.frame, hs.2.earlier⟩
    · cases hreads with
      | _ => exact ⟨hs.2.frame, hs.2.earlier⟩

section

variable {row : LedgerMessage → Message}

/-- What clients are sent of a version: its place and its number at least. -/
def Keeps (row : LedgerMessage → Message) : Prop :=
  ∀ m, (row m).place = ⟨m.id, m.seq, m.inChannel⟩ ∧ (row m).changeSeq = m.changeSeq

theorem Keeps.id_eq (h : Keeps row) (v : LedgerMessage) : (row v).id = v.id :=
  congrArg Place.id (h v).1

theorem Keeps.seq_eq (h : Keeps row) (v : LedgerMessage) : (row v).seq = v.seq :=
  congrArg Place.seq (h v).1

/-- **A log says what the room is**: its changes are the versions, and it leaves the rows. -/
structure Shows (row : LedgerMessage → Message) (s : LedgerService) (log : RoomLog) : Prop where
  changes : log.changes.Perm (s.versions.map row)
  rows : ∀ m, m ∈ log.rowsAt log.length ↔ m ∈ s.ledger.messages.map row

/-- Versions as clients are sent them, in the order of their numbers. -/
def sentRows (row : LedgerMessage → Message) (vs : List LedgerMessage) : List Message :=
  (vs.map row).insertionSort (·.changeSeq ≤ ·.changeSeq)

theorem perm_sentRows (vs : List LedgerMessage) : (sentRows row vs).Perm (vs.map row) :=
  perm_insertionSort _ _

variable (hrow : Keeps row)
include hrow

/-- The first versions, in the order of their numbers, are a log. -/
theorem Placed.wellFormed (h : s.Placed) (hs : s.InOrder kind)
    (hmem : ∀ x ∈ changes, ∃ v ∈ s.versions, row v = x)
    (hall : ∀ v ∈ s.versions, v.changeSeq ≤ changes.length → row v ∈ changes)
    (hnumbers : changes.map Message.changeSeq = range' 1 changes.length) : WellFormed changes := by
  induction changes using reverseRecOn with
  | nil => exact .nil
  | append_singleton changes m ih =>
    rw [map_append, length_append, length_singleton, range'_1_concat] at hnumbers
    obtain ⟨hrest, hm⟩ := append_inj' hnumbers rfl
    obtain ⟨w, hw, rfl⟩ := hmem m (mem_append_right _ (.head _))
    have hnumber : (row w).changeSeq = 1 + changes.length := (List.cons.inj hm).1
    have hold : ∀ v ∈ s.versions, v.changeSeq ≤ changes.length → row v ∈ changes := by
      intro v hv hle
      have hv' := hall v hv (hle.trans (length_append ▸ Nat.le_add_right ..))
      refine (mem_append.mp hv').resolve_right fun hvw => ?_
      have hsame := congrArg Message.changeSeq (mem_singleton.mp hvw)
      rw [(hrow v).2, hnumber] at hsame
      omega
    have hmem' (x) (hx : x ∈ changes) := hmem x (mem_append_left _ hx)
    refine .snoc (ih hmem' hold hrest) ⟨hnumber.trans (Nat.add_comm ..), fun x hx hid => ?_,
      fun hnew => ⟨?_, fun x hx => ?_⟩⟩
    · obtain ⟨v, hv, rfl⟩ := hmem' x hx
      rw [hrow.id_eq, hrow.id_eq] at hid
      rw [(hrow v).1, (hrow w).1]
      exact congrArg (fun f : MessageFrame => (⟨f.id, f.seq, f.inChannel⟩ : Place))
        (h.frame_eq hs hv hw (.inl hid))
    · obtain ⟨i, -, hseq⟩ := h.frame_at hs hw
      rw [hrow.seq_eq, hseq]
      exact Nat.succ_pos i
    · obtain ⟨v, hv, rfl⟩ := hmem' x hx
      rw [hrow.seq_eq, hrow.seq_eq]
      rcases lt_trichotomy v.seq w.seq with hlt | heq | hgt
      · exact hlt
      · have hid := congrArg MessageFrame.id (h.frame_eq hs hv hw (.inr heq))
        exact absurd ((hrow.id_eq v).trans (hid.trans (hrow.id_eq w).symm)) (hnew _ hx)
      · -- it would have had a version before
        obtain ⟨u, hu, hid, hbefore⟩ := h.earlier w hw v hv hgt
        have hle := mem_range'_1.mp (hrest ▸ mem_map_of_mem hx : (row v).changeSeq ∈ _)
        rw [(hrow v).2] at hle
        exact absurd ((hrow.id_eq u).trans (hid.trans (hrow.id_eq w).symm))
          (hnew _ (hold u hu (by omega)))

/-- The versions, in the order of their numbers, are a log that says what the room is. -/
theorem Placed.shows {n : ℕ} (h : s.Placed) (hs : s.Logged kind)
    (hperm : changes.Perm (s.versions.map row))
    (hnumbers : changes.map Message.changeSeq = range' 1 n) :
    ∃ log, log.changes = changes ∧ Shows row s log := by
  obtain rfl : changes.length = n := by simpa using congrArg length hnumbers
  have hmem {v} (hv : v ∈ s.versions) : row v ∈ changes :=
    hperm.mem_iff.mpr (mem_map_of_mem hv)
  have hof (x) (hx : x ∈ changes) := mem_map.mp (hperm.mem_iff.mp hx)
  have hwf := h.wellFormed hrow hs.inOrder hof (fun v hv _ => hmem hv) hnumbers
  refine ⟨⟨changes, hwf⟩, rfl, hperm, fun x => (RoomLog.mem_rowsAt _).trans ?_⟩
  constructor
  · rintro ⟨hx, -, hnewest⟩
    obtain ⟨v, hv, rfl⟩ := hof x hx
    obtain ⟨m, hm, hmid, hle⟩ := hs.versioned.latest v hv
    have hmv := hs.versioned.current m hm
    have hge := hnewest (row m) (hmem hmv) (hwf.changeSeq_bounds (hmem hmv)).2
      ((hrow.id_eq m).trans (hmid.trans (hrow.id_eq v).symm))
    rw [(hrow m).2, (hrow v).2] at hge
    have hnodup := hs.versioned.numbers.nodup_iff.mpr nodup_range'
    exact inj_on_of_nodup_map hnodup hmv hv (hge.antisymm hle) ▸ mem_map_of_mem hm
  · intro hx
    obtain ⟨m, hm, rfl⟩ := mem_map.mp hx
    have hmv := hmem (hs.versioned.current m hm)
    refine ⟨hmv, (hwf.changeSeq_bounds hmv).2, fun y hy _ hyid => ?_⟩
    obtain ⟨w, hw, rfl⟩ := hof y hy
    obtain ⟨n, hn, hnid, hle⟩ := hs.versioned.latest w hw
    rw [hrow.id_eq, hrow.id_eq] at hyid
    have hnm := inj_on_of_nodup_map (RoomLedger.ids_nodup hs.inOrder.threadSound) hn hm
      (hnid.trans hyid)
    rw [(hrow w).2, (hrow m).2, ← hnm]
    exact hle

theorem numbers_sentRows {vs : List LedgerMessage} {a n : ℕ}
    (h : (vs.map LedgerMessage.changeSeq).Perm (range' a n)) :
    (sentRows row vs).map Message.changeSeq = range' a n := by
  have hmap : (vs.map row).map Message.changeSeq = vs.map LedgerMessage.changeSeq := by
    rw [map_map]
    exact map_congr_left fun v _ => (hrow v).2
  refine Perm.eq_of_pairwise' ?_ pairwise_le_range' (((perm_sentRows vs).map _).trans ?_)
  · exact pairwise_map.mpr (pairwise_insertionSort _ _)
  · rw [hmap]
    exact h

/-- **Whatever happens appends to a log** that says what the room is: its versions, in the order of
their numbers. -/
theorem Shows.act {log : RoomLog} (hshows : Shows row s log) (h : (system kind).Reachable s)
    (hstep : (system kind).step s a = some s') : ∃ log', Shows row s' log' ∧
      log'.changes = log.changes ++ sentRows row (s'.versions.drop s.versions.length) := by
  obtain ⟨hs, hplaced⟩ := placed_of_reachable h
  obtain ⟨hs', hplaced'⟩ := placed_of_reachable (h.tail trivial hstep)
  have hrest (hversions : s'.versions = s.versions) (hledger : s'.ledger = s.ledger) :
      ∃ log', Shows row s' log' ∧
        log'.changes = log.changes ++ sentRows row (s'.versions.drop s.versions.length) :=
    ⟨log, ⟨hversions ▸ hshows.changes, hledger ▸ hshows.rows⟩, by simp [hversions, sentRows]⟩
  rcases act_cases hstep with hcommits | ⟨t, rfl, -⟩ | ⟨i, t, t', -, -, rfl, -⟩ | hreads
  · have hcommit := commit_of_commits hs.inOrder hs.versioned hcommits
    rw [hcommit.versions, drop_left]
    have hlast : log.changes.length = s.ledger.room.lastChangeSeq := by
      simpa using hshows.changes.length_eq.trans
        ((length_map _).trans (by simpa using hs.versioned.numbers.length_eq))
    have hperm : (log.changes ++ sentRows row (s.ledger.changedRows s'.ledger)).Perm
        (s'.versions.map row) := by
      rw [hcommit.versions, map_append]
      exact hshows.changes.append (perm_sentRows _)
    obtain ⟨log', hchanges, hshows'⟩ := hplaced'.shows hrow hs' hperm (by
      rw [map_append, log.wellFormed.numbers, numbers_sentRows hrow hcommit.numbered.versions, hlast,
        Nat.add_comm _ 1, range'_append_1])
    exact ⟨log', hshows', hchanges⟩
  · exact hrest rfl rfl
  · exact hrest rfl rfl
  · cases hreads with
    | _ => exact hrest rfl rfl

/-- **The room refines a log**: in every run some log says what it is, and whatever happens next
appends to each that does. -/
theorem ledger_refines_log (h : (system kind).Reachable s) : (∃ log, Shows row s log) ∧
    ∀ log, Shows row s log → ∀ a s', (system kind).step s a = some s' →
      ∃ log', Shows row s' log' ∧ log.changes <+: log'.changes := by
  constructor
  · obtain ⟨hs, hplaced⟩ := placed_of_reachable h
    obtain ⟨log, -, hshows⟩ := hplaced.shows hrow hs (perm_sentRows _)
      (numbers_sentRows hrow hs.versioned.numbers)
    exact ⟨log, hshows⟩
  · intro log hshows a s' hstep
    obtain ⟨log', hshows', hchanges⟩ := hshows.act hrow h hstep
    exact ⟨log', hshows', _, hchanges.symm⟩

end

/-- **The transactions are serializable**: whatever runs at once and fails, the rows are those of
transactions that ran one after another. -/
theorem ledger_serializable (h : (system kind).Reachable s) :
    (RoomRun.system kind).Reachable ⟨s.ledger, [], []⟩ :=
  (placed_of_reachable h).1.inOrder.run

/-- A version as clients are sent it. -/
def shownRow (m : LedgerMessage) : Message :=
  { Message.said m.senderId m.seq m.changeSeq with
    id := m.id
    threadRootId := if m.inChannel then none else some m.id }

theorem keeps_shownRow : Keeps shownRow := by
  refine fun m => ⟨?_, rfl⟩
  unfold Message.place Hibari.inChannel shownRow
  cases m.inChannel <;> rfl

/-- A message has been edited. -/
theorem exists_edited :
    ∃ s, (system .roomPublic).Reachable s ∧ s.ledger.room.lastChangeSeq = 3 := by
  have hrun : ((system .roomPublic).run ⟨.empty, [], [], [], ⟨0, none, []⟩⟩
      [.other (.joinRoom 1 71 81), .start (.sendMessage 1 73 83 "hello"), .step 0, .step 0, .step 0,
        .start (.editMessage 83 "hallo"), .step 1, .step 1, .step 1]).any
      (fun s => s.ledger.room.lastChangeSeq = 3) = true := by decide +kernel
  obtain ⟨s, hs, hlast⟩ := TransitionSystem.exists_of_run hrun rfl
  exact ⟨s, hs, of_decide_eq_true hlast⟩

theorem ledger_refines_log_edited : ∃ s, (system .roomPublic).Reachable s ∧
    s.ledger.room.lastChangeSeq = 3 ∧ ∃ log, Shows shownRow s log := by
  obtain ⟨s, hs, hlast⟩ := exists_edited
  exact ⟨s, hs, hlast, (ledger_refines_log keeps_shownRow hs).1⟩

theorem ledger_serializable_edited : ∃ s, (system .roomPublic).Reachable s ∧
    s.ledger.room.lastChangeSeq = 3 ∧
      (RoomRun.system .roomPublic).Reachable ⟨s.ledger, [], []⟩ := by
  obtain ⟨s, hs, hlast⟩ := exists_edited
  exact ⟨s, hs, hlast, ledger_serializable hs⟩

end LedgerService

end Hibari
