import Hibari.RoomCommits

/-!
# The change log of a room

A room numbers its messages, and the versions of its messages, and it does so for many
transactions at once. Each number is given out under the lock of the room's row, and that is
held until the commit: so the numbers come in the order of the commits, and a transaction
that fails takes none. What remains is what each transaction does with the numbers it took:
it makes as many versions, of messages that are there, one for each (`numbered_written`).

That is what a client relies on that polls by number. It reads the room's number before the
messages, in a statement of its own: what has a number up to that one had committed when the
messages were read (`change_log_sound`).
-/

namespace Hibari

open List Option RoomRecord

namespace RoomLedger

variable {kind : RoomKind} {l l' : RoomLedger} {w : LedgerWrite} {numbers : RoomRecord}
  {v m : LedgerMessage} {rest : List LedgerMessage} {f : LedgerMessage → LedgerMessage}

/-! ## The versions of a transaction -/

/-- **Each number that was taken is that of one version**, and no version has another. -/
structure Numbered (l l' : RoomLedger) : Prop where
  le : l.room.lastChangeSeq ≤ l'.room.lastChangeSeq
  versions : ((l.changedRows l').map LedgerMessage.changeSeq).Perm
    (List.range' (l.room.lastChangeSeq + 1) (l'.room.lastChangeSeq - l.room.lastChangeSeq))

/-- The numbers that messages have were given out. -/
def Bounded (l : RoomLedger) : Prop := ∀ m ∈ l.messages, m.changeSeq ≤ l.room.lastChangeSeq

/-- What changed is what is not from before. -/
theorem changedRows_perm (vs rest : List LedgerMessage) (hperm : l'.messages.Perm (vs ++ rest))
    (hnew : ∀ v ∈ vs, v ∉ l.messages) (hrest : ∀ m ∈ rest, m ∈ l.messages) :
    (l.changedRows l').Perm vs := by
  have hfilter := hperm.filter fun m => decide (m ∉ l.messages)
  rw [filter_append] at hfilter
  have hvs : vs.filter (fun m => decide (m ∉ l.messages)) = vs :=
    filter_eq_self.mpr fun v hv => decide_eq_true (hnew v hv)
  have hnone : rest.filter (fun m => decide (m ∉ l.messages)) = [] :=
    filter_eq_nil_iff.mpr fun m hm => by simpa using hrest m hm
  rw [hvs, hnone, append_nil] at hfilter
  exact hfilter

theorem numbered_of_none (hroom : l'.room.lastChangeSeq = l.room.lastChangeSeq)
    (hmessages : l'.messages = l.messages) : Numbered l l' where
  le := hroom.ge
  versions := by
    have hnone : (l.changedRows l').Perm [] := changedRows_perm [] l.messages
      (by rw [hmessages]; rfl) nofun fun m hm => hm
    rw [hroom, Nat.sub_self]
    exact hnone.map _

theorem numbered_of_one (hs : l.Bounded) (hperm : l'.messages.Perm (v :: rest))
    (hv : v.changeSeq = l.room.lastChangeSeq + 1)
    (hroom : l'.room.lastChangeSeq = l.room.lastChangeSeq + 1) (hrest : ∀ m ∈ rest, m ∈ l.messages) :
    Numbered l l' where
  le := by omega
  versions := by
    have hone : (l.changedRows l').Perm [v] := changedRows_perm [v] rest hperm (fun x hx hold => by
        rw [mem_singleton.mp hx] at hold
        have hle := hs v hold
        omega) hrest
    rw [hroom, Nat.add_sub_cancel_left]
    refine (hone.map _).trans ?_
    rw [map_singleton, hv]
    exact .refl _

theorem numbered_of_two {v' : LedgerMessage} (hs : l.Bounded)
    (hperm : l'.messages.Perm (v :: v' :: rest)) (hv : v.changeSeq = l.room.lastChangeSeq + 1)
    (hv' : v'.changeSeq = l.room.lastChangeSeq + 2)
    (hroom : l'.room.lastChangeSeq = l.room.lastChangeSeq + 2) (hrest : ∀ m ∈ rest, m ∈ l.messages) :
    Numbered l l' where
  le := by omega
  versions := by
    have htwo : (l.changedRows l').Perm [v, v'] := changedRows_perm [v, v'] rest hperm
      (fun x hx hold => by
        have hle := hs x hold
        rcases mem_cons.mp hx with rfl | hx
        · omega
        · rw [mem_singleton.mp hx] at hle
          omega) hrest
    rw [hroom, Nat.add_sub_cancel_left]
    refine (htwo.map _).trans ?_
    rw [map_cons, map_singleton, hv, hv']
    exact .refl _

/-- A message that is there is written. -/
theorem updateMessage_perm {rows : List LedgerMessage}
    (hnodup : (rows.map (fun m => m.id)).Nodup) (hm : m ∈ rows) (f : LedgerMessage → LedgerMessage) :
    (rows.map fun x => if x.id = m.id then f x else x).Perm (f m :: rows.erase m) := by
  have hperm := perm_cons_erase hm
  have hnodup' : m.id ∉ (rows.erase m).map (fun m => m.id) := by
    have hcons : ((m :: rows.erase m).map fun x : LedgerMessage => x.id).Nodup :=
      (hperm.map fun x : LedgerMessage => x.id).nodup_iff.mp hnodup
    exact (nodup_cons.mp hcons).1
  refine (hperm.map _).trans ?_
  rw [map_cons, if_pos rfl]
  refine .cons _ ?_
  have hsame : (rows.erase m).map (fun x => if x.id = m.id then f x else x) = rows.erase m := by
    refine (map_congr_left fun x hx => ?_).trans (List.map_id _)
    rw [if_neg fun heq => hnodup' (List.mem_map.mpr ⟨x, hx, heq⟩)]
    rfl
  rw [hsame]

variable (hs : l.ThreadSound)
include hs

theorem ids_nodup : (l.messages.map (fun m => m.id)).Nodup := by
  have hids := hs.table.ids
  unfold threadRows at hids
  rw [List.map_map] at hids
  exact hids

theorem numbered_of_update (hbounded : l.Bounded) (hm : m ∈ l.messages) (hf : (f m).changeSeq = l.room.lastChangeSeq + 1)
    (hmessages : l'.messages = l.messages.map fun x => if x.id = m.id then f x else x)
    (hroom : l'.room.lastChangeSeq = l.room.lastChangeSeq + 1) : Numbered l l' := by
  have hperm : l'.messages.Perm (f m :: l.messages.erase m) := by
    rw [hmessages]
    exact updateMessage_perm (ids_nodup hs) hm f
  exact numbered_of_one hbounded hperm hf hroom fun x hx => mem_of_mem_erase hx

omit hs

theorem numbered_of_append (hbounded : l.Bounded) (hmessages : l'.messages = l.messages ++ [v])
    (hv : v.changeSeq = l.room.lastChangeSeq + 1)
    (hroom : l'.room.lastChangeSeq = l.room.lastChangeSeq + 1) : Numbered l l' := by
  have hperm : l'.messages.Perm (v :: l.messages) := by
    rw [hmessages]
    exact perm_append_singleton _ _
  exact numbered_of_one hbounded hperm hv hroom fun x hx => hx

include hs

/-- A message is added, and one that is there is written after it. -/
theorem numbered_of_update_append (hbounded : l.Bounded) (hm : m ∈ l.messages) (hf : (f m).changeSeq = l.room.lastChangeSeq + 2)
    (hv : v.changeSeq = l.room.lastChangeSeq + 1)
    (hmessages : l'.messages = (l.messages.map fun x => if x.id = m.id then f x else x) ++ [v])
    (hroom : l'.room.lastChangeSeq = l.room.lastChangeSeq + 2) : Numbered l l' := by
  have hperm : l'.messages.Perm (v :: f m :: l.messages.erase m) := by
    rw [hmessages]
    exact (perm_append_singleton _ _).trans (.cons _ (updateMessage_perm (ids_nodup hs) hm f))
  exact numbered_of_two hbounded hperm hv hf hroom fun x hx => mem_of_mem_erase hx

/-- Two messages that are there are written, one after the other. -/
theorem numbered_of_updates {r : LedgerMessage} (hbounded : l.Bounded)
    (hm : m ∈ l.messages) (hr : r ∈ l.messages) (hne : r.id ≠ m.id)
    {g : LedgerMessage → LedgerMessage} (hid : ∀ x, (f x).id = x.id)
    (hf : (f m).changeSeq = l.room.lastChangeSeq + 1)
    (hg : (g r).changeSeq = l.room.lastChangeSeq + 2)
    (hmessages : l'.messages = (l.messages.map fun x => if x.id = m.id then f x else x).map
      fun x => if x.id = r.id then g x else x)
    (hroom : l'.room.lastChangeSeq = l.room.lastChangeSeq + 2) : Numbered l l' := by
  have hfirst := updateMessage_perm (ids_nodup hs) hm f
  have hkept : ((l.messages.erase m).map fun x => if x.id = r.id then g x else x).Perm
      (g r :: (l.messages.erase m).erase r) := by
    refine updateMessage_perm ?_ ?_ g
    · exact (ids_nodup hs).sublist (erase_sublist.map _)
    · exact (mem_erase_of_ne fun heq => hne (congrArg (fun x => x.id) heq)).mpr hr
  have hperm : l'.messages.Perm (f m :: g r :: (l.messages.erase m).erase r) := by
    rw [hmessages]
    refine (hfirst.map _).trans ?_
    rw [map_cons, if_neg fun heq => hne ((hid m).symm.trans heq).symm]
    exact .cons _ hkept
  exact numbered_of_two hbounded hperm hf hg hroom
    fun x hx => mem_of_mem_erase (mem_of_mem_erase hx)

omit hs

theorem exists_of_any {message : Ulid} {P : LedgerMessage → Bool}
    (h : (l.getMessage message).any P = true) :
    ∃ m ∈ l.messages, m.id = message ∧ l.getMessage message = some m := by
  obtain ⟨m, hm, -⟩ := (Option.any_eq_true _ _).mp h
  obtain ⟨hmem, hid⟩ := mem_of_getMessage hm
  exact ⟨m, hmem, hid, hm⟩

/-- **Each transaction makes as many versions as it takes numbers.** -/
theorem numbered_written (hs : l.ThreadSound) (hbounded : l.Bounded) (hadmits : l.admits w = true)
    (hnumbers : l.allocate kind w = some numbers) (h : l.written kind numbers w = some l') :
    Numbered l l' := by
  have hroom := congrArg RoomRecord.lastChangeSeq (written_leaves h).room
  cases w with
  | sendMessage =>
    obtain rfl := eq_of_allocateMessageSeq hnumbers
    obtain ⟨l₁, hl₁, rfl⟩ := map_eq_some_iff.mp h
    obtain ⟨rfl, -, -⟩ := createMessage_eq_some hl₁
    exact numbered_of_append hbounded rfl rfl hroom
  | sendThreadReply actor clientMsgId id _ body alsoInChannel mentions =>
    obtain ⟨p, hp, rfl, -, -, l₁, -, -, hmessages, rfl⟩ := written_sendThreadReply hadmits h
    obtain rfl := eq_of_allocateThreadReplySeq hnumbers
    have hsame : SameButThreads l₁ (l₁.followReply kind actor p.id p.senderId
        (p.lastThreadSeq + 1) mentions) := sameButThreads_followReply _ _ _ _ _
    set v := userMessage ⟨l.room.archived, l.room.lastMessageSeq + 1, l.room.lastChangeSeq + 2,
      l.room.lastUserSeq + if alsoInChannel then 1 else 0⟩ (l.room.lastChangeSeq + 2 - 1) actor
      clientMsgId id body (some p.id) (some (p.lastThreadSeq + 1)) alsoInChannel with hv
    have hlast : v.changeSeq = l.room.lastChangeSeq + 1 := by
      show l.room.lastChangeSeq + 2 - 1 = _
      omega
    refine numbered_of_update_append hs hbounded hp (f := fun m => { m with
      lastThreadSeq := m.lastThreadSeq + 1
      threadReplyCount := m.threadReplyCount + 1
      changeSeq := l.room.lastChangeSeq + 2 }) rfl hlast ?_ hroom
    rw [show (l₁.followReply kind actor p.id p.senderId (p.lastThreadSeq + 1) mentions).messages
      = l₁.messages from by rw [hsame], hmessages]
    rfl
  | touchHuddleMessage =>
    obtain ⟨m, hm, rfl, -⟩ := exists_of_any hadmits
    cases hnumbers
    cases h
    exact numbered_of_update hs hbounded hm rfl rfl hroom
  | deleteMessage =>
    obtain ⟨m, hm, rfl, hget⟩ := exists_of_any hadmits
    cases hroot : m.threadRootId with
    | none =>
      simp only [allocate, hget, any_some, hroot] at hnumbers
      obtain rfl := eq_of_allocateChangeSeq hnumbers
      simp only [written, hget, bind_some, hroot] at h
      cases h
      exact numbered_of_update hs hbounded hm rfl rfl hroom
    | some root =>
      simp only [allocate, hget, any_some, hroot, isSome_some, if_true] at hnumbers
      obtain rfl := eq_of_allocateChangeSeq hnumbers
      simp only [written, hget, bind_some, hroot] at h
      cases h
      obtain ⟨q, hq, hqid, hqroot⟩ := hs.table.root m.threadRow (mem_threadRows hm) root hroot
      obtain ⟨r, hr, rfl⟩ := List.mem_map.mp hq
      obtain rfl : r.id = root := hqid
      have hne : r.id ≠ m.id := by
        intro heq
        have hsame := congrArg ThreadRow.threadRootId (hs.eq_of_id hr hm heq)
        rw [hqroot] at hsame
        cases hsame.trans hroot
      exact numbered_of_updates hs hbounded hm hr hne (f := fun m => { m with
          body := ""
          deleted := true
          changeSeq := l.room.lastChangeSeq + 2 - 1 })
        (g := fun m => { m with
          threadReplyCount := m.threadReplyCount - 1
          changeSeq := l.room.lastChangeSeq + 2 }) (fun _ => rfl) rfl rfl rfl hroom
  | writeSystemMessage =>
    cases hnumbers
    obtain ⟨rfl, -, -⟩ := createMessage_eq_some h
    exact numbered_of_append hbounded rfl rfl hroom
  | writeHuddleMessage starter clientMsgId id =>
    have hlast : numbers.lastChangeSeq = l.room.lastChangeSeq + 1 := by
      simp only [allocate] at hnumbers
      by_cases hkind : kind = .roomDM
      · rw [if_pos hkind] at hnumbers
        obtain rfl := eq_of_allocateMessageSeq hnumbers
        rfl
      · rw [if_neg hkind] at hnumbers
        cases hnumbers
        rfl
    obtain ⟨l₁, hl₁, rfl⟩ := map_eq_some_iff.mp h
    obtain ⟨rfl, -, -⟩ := createMessage_eq_some hl₁
    refine numbered_of_append hbounded (v := systemMessage numbers starter clientMsgId id .huddle) ?_
      hlast (hroom.trans hlast)
    split <;> rfl
  | _ =>
    obtain ⟨m, hm, rfl, -⟩ := exists_of_any hadmits
    obtain rfl := eq_of_allocateChangeSeq hnumbers
    cases h
    exact numbered_of_update hs hbounded hm rfl rfl hroom

theorem numbered_logged {subject clientMsgId id : Ulid} {type : SystemEventType}
    (hbounded : l.Bounded) (h : l.logged kind subject clientMsgId id type = some l') :
    Numbered l l' := by
  obtain ⟨rfl, -, -⟩ := createMessage_eq_some h
  exact numbered_of_append hbounded rfl rfl rfl

theorem Numbered.of_eq {l₀ : RoomLedger} (h : Numbered l₀ l')
    (hroom : l₀.room.lastChangeSeq = l.room.lastChangeSeq) (hmessages : l₀.messages = l.messages) :
    Numbered l l' where
  le := hroom ▸ h.le
  versions := by
    have hversions := h.versions
    unfold changedRows at hversions ⊢
    rw [← hroom, ← hmessages]
    exact hversions

/-- **So does every other transaction.** -/
theorem numbered_env {a : RoomRunAction} {rows : List RoomRow} {run : RoomRun} (hbounded : l.Bounded)
    (hrows : envRows a = some rows) (h : RoomRun.act kind ⟨l, [], []⟩ a = some run) :
    Numbered l run.ledger := by
  cases a with
  | joinRoom userId clientMsgId id =>
    obtain ⟨l', hl', rfl⟩ := map_eq_some_iff.mp h
    have hjoin : l.joinRoom kind userId clientMsgId id = some l' := hl'
    have hroom : (l.addRoomMember userId).room = l.room := by
      unfold addRoomMember
      split <;> rfl
    have hmessages : (l.addRoomMember userId).messages = l.messages := by
      unfold addRoomMember
      split <;> rfl
    unfold joinRoom at hjoin
    split at hjoin
    · cases hjoin
    · split at hjoin
      · cases hjoin
        exact numbered_of_none (congrArg RoomRecord.lastChangeSeq hroom) hmessages
      · have hadded : (l.addRoomMember userId).Bounded := by
          unfold Bounded
          rw [hroom, hmessages]
          exact hbounded
        exact (numbered_logged hadded hjoin).of_eq (congrArg RoomRecord.lastChangeSeq hroom) hmessages
  | leaveRoom userId clientMsgId id removed =>
    obtain ⟨l', hl', rfl⟩ := map_eq_some_iff.mp h
    have hleave : l.leaveRoom kind userId clientMsgId id removed = some l' := hl'
    unfold leaveRoom at hleave
    by_cases hif : (l.isMember userId && decide (kind ≠ .roomDM)) = true
    · rw [if_pos hif] at hleave
      exact (numbered_logged (l := l.deleteRoomMember userId) hbounded hleave).of_eq rfl rfl
    · rw [if_neg hif] at hleave
      cases hleave
  | setArchived archived actor clientMsgId id =>
    obtain ⟨l', hl', rfl⟩ := map_eq_some_iff.mp h
    have hset : l.setArchived kind archived actor clientMsgId id = some l' := hl'
    unfold setArchived at hset
    split at hset
    · cases hset
    · obtain ⟨l₁, hlogged, rfl⟩ := map_eq_some_iff.mp hset
      have hnumbered := numbered_logged hbounded hlogged
      exact ⟨hnumbered.le, hnumbered.versions⟩
  | leaveWorkspace | markThreadRead =>
    cases h
    exact numbered_of_none rfl rfl
  | followThread =>
    obtain ⟨l', hl', rfl⟩ := map_eq_some_iff.mp h
    have hsame := sameButThreads_followFromNow hl'
    show Numbered l l'
    rw [hsame]
    exact numbered_of_none rfl rfl
  | _ => exact absurd hrows (by simp [envRows])

/-! ## Pages of changes -/

/-- **A page of changes is complete** up to its last row, or as a whole. -/
theorem changesPage_complete (hinj : ∀ m ∈ l.messages, ∀ m' ∈ l.messages,
      m.changeSeq = m'.changeSeq → m = m') (after : ℕ) (limit : ℤ) :
    (∀ x ∈ (l.changesPage after limit).1, x ∈ l.messages) ∧
    ((l.changesPage after limit).2 = false → ∀ m ∈ l.messages, after < m.changeSeq →
      m ∈ (l.changesPage after limit).1) ∧
    ((l.changesPage after limit).2 = true → ∃ last, (l.changesPage after limit).1.getLast? = some last ∧
      ∀ m ∈ l.messages, after < m.changeSeq → m.changeSeq ≤ last.changeSeq →
        m ∈ (l.changesPage after limit).1) := by
  set sorted := (l.messages.filter fun m => decide (after < m.changeSeq)).insertionSort
    (fun a b => a.changeSeq ≤ b.changeSeq) with hsorted
  have hmem : ∀ m, m ∈ sorted ↔ m ∈ l.messages ∧ after < m.changeSeq := by
    intro m
    rw [hsorted, mem_insertionSort, mem_filter, decide_eq_true_eq]
  have hk := messageLimit_pos limit
  have hrows : l.listMessagesChangedAfter after (messageLimit limit + 1)
      = sorted.take (messageLimit limit + 1) := rfl
  by_cases hmore : messageLimit limit < sorted.length
  · have hlen : messageLimit limit < (sorted.take (messageLimit limit + 1)).length := by
      rw [length_take]
      omega
    have hpage : l.changesPage after limit = (sorted.take (messageLimit limit), true) := by
      unfold changesPage
      rw [hrows]
      simp only [hlen, decide_true, if_true, take_take]
      rw [min_eq_left (Nat.le_succ _)]
    rw [hpage]
    refine ⟨fun x hx => ((hmem x).mp (mem_of_mem_take hx)).1, fun h => absurd h (by simp),
      fun _ => ?_⟩
    have hlast : messageLimit limit - 1 < sorted.length := by omega
    refine ⟨sorted[messageLimit limit - 1], ?_, fun m hm hafter hle => ?_⟩
    · rw [getLast?_take, if_neg (by omega), getElem?_eq_getElem hlast, some_or]
    · obtain ⟨j, hj, rfl⟩ := mem_iff_getElem.mp ((hmem m).mpr ⟨hm, hafter⟩)
      by_cases hjk : j < messageLimit limit
      · exact mem_take_iff_getElem.mpr ⟨j, by omega, rfl⟩
      · have hpair := pairwise_iff_getElem.mp
          (pairwise_insertionSort (fun a b : LedgerMessage => a.changeSeq ≤ b.changeSeq)
            (l.messages.filter fun m => decide (after < m.changeSeq)))
          (messageLimit limit - 1) j hlast hj (by omega)
        have heq := hinj _ hm _ ((hmem _).mp (getElem_mem hlast)).1 (le_antisymm hle hpair)
        rw [heq]
        exact mem_take_iff_getElem.mpr ⟨messageLimit limit - 1, by omega, rfl⟩
  · have hall : sorted.take (messageLimit limit + 1) = sorted :=
      take_of_length_le (by omega)
    have hpage : l.changesPage after limit = (sorted, false) := by
      unfold changesPage
      rw [hrows, hall]
      simp [hmore]
    rw [hpage]
    refine ⟨fun x hx => ((hmem x).mp hx).1, fun _ m hm hafter => (hmem m).mpr ⟨hm, hafter⟩,
      nofun⟩

end RoomLedger

open RoomLedger

/-! ## Runs -/

namespace LedgerService

variable {kind : RoomKind} {s s' : LedgerService} {a : LedgerServiceAction}

/-- **Numbers and versions go together.** -/
structure Versioned (s : LedgerService) : Prop where
  numbers : (s.versions.map LedgerMessage.changeSeq).Perm
    (List.range' 1 s.ledger.room.lastChangeSeq)
  current : ∀ m ∈ s.ledger.messages, m ∈ s.versions
  latest : ∀ v ∈ s.versions, ∃ m ∈ s.ledger.messages, m.id = v.id ∧ v.changeSeq ≤ m.changeSeq

/-- **The client has seen what its cursor promises.** -/
structure Polled (s : LedgerService) : Prop where
  cursor_le : s.poller.cursor ≤ s.ledger.room.lastChangeSeq
  asked_le : ∀ last ∈ s.poller.lastChangeSeq, last ≤ s.ledger.room.lastChangeSeq
  seen : ∀ m ∈ s.ledger.messages, m.changeSeq ≤ s.poller.cursor → m ∈ s.poller.seen

theorem Versioned.bounds (h : s.Versioned) {v : LedgerMessage} (hv : v ∈ s.versions) :
    1 ≤ v.changeSeq ∧ v.changeSeq ≤ s.ledger.room.lastChangeSeq := by
  have hmem := h.numbers.mem_iff.mp (List.mem_map_of_mem hv)
  rw [mem_range'_1] at hmem
  omega

theorem Versioned.bounded (h : s.Versioned) : s.ledger.Bounded :=
  fun _ hm => (h.bounds (h.current _ hm)).2

theorem Versioned.inj (h : s.Versioned) : ∀ m ∈ s.ledger.messages, ∀ m' ∈ s.ledger.messages,
    m.changeSeq = m'.changeSeq → m = m' := by
  intro m hm m' hm' heq
  have hnodup : (s.versions.map LedgerMessage.changeSeq).Nodup :=
    h.numbers.nodup_iff.mpr nodup_range'
  exact inj_on_of_nodup_map hnodup (h.current m hm) (h.current m' hm') heq

/-- **What a commit does to the versions**: it adds those that its numbers are for. -/
structure Commit (s s' : LedgerService) : Prop where
  numbered : s.ledger.Numbered s'.ledger
  stays : ∀ m ∈ s.ledger.messages, ∃ m' ∈ s'.ledger.messages, m'.id = m.id
  versions : s'.versions = s.versions ++ s.ledger.changedRows s'.ledger
  poller : s'.poller = s.poller

theorem exists_of_spares {l l' : RoomLedger} {rows : List RoomRow} (hs : l.Spares rows l')
    {m : LedgerMessage} (hm : m ∈ l.messages) : ∃ m' ∈ l'.messages, m'.id = m.id := by
  have hsome : (l.getMessage m.id).isSome = true :=
    find?_isSome.mpr ⟨m, hm, decide_eq_true rfl⟩
  obtain ⟨m₀, hm₀⟩ := isSome_iff_exists.mp hsome
  obtain ⟨m', hm', -, -⟩ := hs.message m.id m₀ hm₀
  exact ⟨m', mem_of_getMessage hm'⟩

theorem commit_of_commits (hs : s.InOrder kind) (hversions : s.Versioned)
    (h : Commits kind s a s') : Commit s s' := by
  cases h with
  | @write i w held numbers l hi hl =>
    obtain ⟨hadmits, hnumbers, -⟩ := perform_of_commit hs hi hl
    exact ⟨numbered_written hs.threadSound hversions.bounded hadmits hnumbers hl,
      fun m hm => exists_of_spares (spares_written hl) hm, rfl, rfl⟩
  | @other a rows run hrows hfree hrun =>
    exact ⟨numbered_env hversions.bounded hrows hrun,
      fun m hm => exists_of_spares (spares_env hrows hrun) hm, rfl, rfl⟩

variable (h : Commit s s')
include h

/-- A row that a commit left is one from before, or has a new number. -/
theorem Commit.mem_cases {m : LedgerMessage} (hm : m ∈ s'.ledger.messages) :
    m ∈ s.ledger.messages ∨ (m ∈ s.ledger.changedRows s'.ledger ∧
      s.ledger.room.lastChangeSeq < m.changeSeq) := by
  by_cases hold : m ∈ s.ledger.messages
  · exact .inl hold
  · have hchanged : m ∈ s.ledger.changedRows s'.ledger :=
      mem_filter.mpr ⟨hm, decide_eq_true hold⟩
    have hnumber := h.numbered.versions.mem_iff.mp (List.mem_map_of_mem hchanged)
    rw [mem_range'_1] at hnumber
    exact .inr ⟨hchanged, by omega⟩

/-- **Numbers of a message only grow.** -/
theorem Commit.changeSeq_le (hs : s.InOrder kind) (hversions : s.Versioned)
    {m m' : LedgerMessage} (hm : m ∈ s.ledger.messages) (hm' : m' ∈ s'.ledger.messages)
    (hid : m'.id = m.id) : m.changeSeq ≤ m'.changeSeq := by
  rcases h.mem_cases hm' with hold | ⟨-, hlt⟩
  · rw [inj_on_of_nodup_map (ids_nodup hs.threadSound) hold hm hid]
  · exact (hversions.bounded m hm).trans hlt.le

theorem Commit.versioned (hs : s.InOrder kind) (hversions : s.Versioned) : s'.Versioned where
  numbers := by
    have hle := h.numbered.le
    have hall : List.range' 1 s'.ledger.room.lastChangeSeq
        = List.range' 1 s.ledger.room.lastChangeSeq ++ List.range' (s.ledger.room.lastChangeSeq + 1)
            (s'.ledger.room.lastChangeSeq - s.ledger.room.lastChangeSeq) := by
      rw [Nat.add_comm s.ledger.room.lastChangeSeq 1, range'_append_1]
      congr 1
      omega
    rw [h.versions, map_append, hall]
    exact hversions.numbers.append h.numbered.versions
  current m hm := by
    rw [h.versions]
    rcases h.mem_cases hm with hold | ⟨hchanged, -⟩
    · exact mem_append_left _ (hversions.current m hold)
    · exact mem_append_right _ hchanged
  latest v hv := by
    rw [h.versions] at hv
    rcases mem_append.mp hv with hv | hv
    · obtain ⟨m, hm, hid, hle⟩ := hversions.latest v hv
      obtain ⟨m', hm', hid'⟩ := h.stays m hm
      exact ⟨m', hm', hid'.trans hid, hle.trans (h.changeSeq_le hs hversions hm hm' hid')⟩
    · exact ⟨v, (mem_filter.mp hv).1, rfl, le_rfl⟩

theorem Commit.polled (hpolled : s.Polled) : s'.Polled where
  cursor_le := by
    rw [h.poller]
    exact hpolled.cursor_le.trans h.numbered.le
  asked_le last hlast := by
    rw [h.poller] at hlast
    exact (hpolled.asked_le last hlast).trans h.numbered.le
  seen m hm hle := by
    rw [h.poller] at hle ⊢
    rcases h.mem_cases hm with hold | ⟨-, hlt⟩
    · exact hpolled.seen m hold hle
    · exact absurd (hle.trans hpolled.cursor_le) (not_le.mpr hlt)

/-! ### The client -/

omit h

/-- **A page is taken in**: what the new cursor promises has been seen, and where there is no
more, all that is there. -/
theorem polled_receive {last : ℕ} (hversions : s.Versioned) (hpolled : s.Polled)
    (hlast : s.poller.lastChangeSeq = some last) (limit : ℤ) :
    Polled { s with
      poller := s.poller.receive last (s.ledger.changesPage s.poller.cursor limit) } ∧
    ((s.ledger.changesPage s.poller.cursor limit).2 = false → ∀ m ∈ s.ledger.messages,
        m ∈ (s.poller.receive last (s.ledger.changesPage s.poller.cursor limit)).seen) := by
  obtain ⟨hmem, hall, hsome⟩ :=
    changesPage_complete hversions.inj s.poller.cursor limit
  set page := s.ledger.changesPage s.poller.cursor limit with hpage
  have hseen : ∀ m ∈ s.ledger.messages, (s.poller.cursor < m.changeSeq → m ∈ page.1) →
      m ∈ s.poller.seen ++ page.1 := by
    intro m hm hnew
    rcases Nat.lt_or_ge s.poller.cursor m.changeSeq with hlt | hle
    · exact mem_append_right _ (hnew hlt)
    · exact mem_append_left _ (hpolled.seen m hm hle)
  refine ⟨?_, fun hmore m hm => hseen m hm (hall hmore m hm)⟩
  cases hmore : page.2 with
  | false =>
    refine ⟨?_, fun x hx => absurd hx (by simp [ChangePoller.receive]), fun m hm _ =>
      hseen m hm (hall hmore m hm)⟩
    show (if page.2 then _ else max s.poller.cursor last) ≤ _
    rw [hmore]
    exact max_le hpolled.cursor_le (hpolled.asked_le last hlast)
  | true =>
    obtain ⟨row, hrow, hupto⟩ := hsome hmore
    have hcursor : (s.poller.receive last page).cursor = row.changeSeq := by
      show (if page.2 then (page.1.getLast?.map LedgerMessage.changeSeq).getD _ else _) = _
      rw [hmore, hrow]
      rfl
    refine ⟨?_, fun x hx => absurd hx (by simp [ChangePoller.receive]), fun m hm hle => ?_⟩
    · show (s.poller.receive last page).cursor ≤ s.ledger.room.lastChangeSeq
      rw [hcursor]
      exact hversions.bounded row (hmem row (mem_of_getLast? hrow))
    · refine hseen m hm fun hlt => hupto m hm hlt ?_
      rw [← hcursor]
      exact hle

/-! ### The change log -/

/-- What holds of a room in every run. -/
structure Logged (kind : RoomKind) (s : LedgerService) : Prop where
  inOrder : s.InOrder kind
  versioned : s.Versioned
  polled : s.Polled

theorem Versioned.of_eq (h : s.Versioned) (hledger : s'.ledger = s.ledger)
    (hversions : s'.versions = s.versions) : s'.Versioned := by
  refine ⟨?_, ?_, ?_⟩
  · rw [hledger, hversions]
    exact h.numbers
  · rw [hledger, hversions]
    exact h.current
  · rw [hledger, hversions]
    exact h.latest

theorem Polled.of_eq (h : s.Polled) (hledger : s'.ledger = s.ledger)
    (hpoller : s'.poller = s.poller) : s'.Polled := by
  refine ⟨?_, ?_, ?_⟩
  · rw [hledger, hpoller]
    exact h.cursor_le
  · rw [hledger, hpoller]
    exact h.asked_le
  · rw [hledger, hpoller]
    exact h.seen

theorem polled_ask (h : s.Polled) :
    Polled { s with poller := { s.poller with lastChangeSeq := some s.ledger.room.lastChangeSeq } } where
  cursor_le := h.cursor_le
  asked_le last hlast := (some.inj hlast).ge
  seen := h.seen

theorem Logged.act (hs : s.Logged kind) (h : act kind s a = some s') : s'.Logged kind := by
  have hinOrder := hs.inOrder.act h
  rcases act_cases h with hcommit | ⟨t, rfl, -⟩ | ⟨i, t, t', -, -, rfl, -⟩ | hreads
  · have hcommit := commit_of_commits hs.inOrder hs.versioned hcommit
    exact ⟨hinOrder, hcommit.versioned hs.inOrder hs.versioned, hcommit.polled hs.polled⟩
  · exact ⟨hinOrder, hs.versioned.of_eq rfl rfl, hs.polled.of_eq rfl rfl⟩
  · exact ⟨hinOrder, hs.versioned.of_eq rfl rfl, hs.polled.of_eq rfl rfl⟩
  · cases hreads with
    | ask => exact ⟨hinOrder, hs.versioned.of_eq rfl rfl, polled_ask hs.polled⟩
    | answer hlast =>
      exact ⟨hinOrder, hs.versioned.of_eq rfl rfl,
        (polled_receive hs.versioned hs.polled hlast _).1⟩

theorem logged_of_init (h : (system kind).init s) : s.Logged kind := by
  refine ⟨inOrder_of_init h, ?_, ?_⟩
  · rw [show s = ⟨.empty, [], [], [], ⟨0, none, []⟩⟩ from h]
    exact ⟨.refl _, fun m hm => absurd hm not_mem_nil, fun v hv => absurd hv not_mem_nil⟩
  · rw [show s = ⟨.empty, [], [], [], ⟨0, none, []⟩⟩ from h]
    exact ⟨le_rfl, fun x hx => absurd hx (by simp), fun m hm => absurd hm not_mem_nil⟩

theorem seqs_eq {l : RoomLedger} (h : Counted kind l) :
    l.messages.map LedgerMessage.seq = List.range' 1 l.room.lastMessageSeq := by
  refine ext_getElem ?_ fun i hi _ => ?_
  · rw [length_map, length_range', h.length_eq, Counted.length_messages]
  · rw [length_map] at hi
    rw [getElem_map, getElem_range'_1,
      (h.getElem_messages (getElem?_eq_getElem hi)).1, Nat.add_comm]

/-- **The change log is sound.** In every run of transactions that run at once and may fail,
the messages have the numbers from one to the last, once each; each number of a change was
given to one version; the number of a message is one that was given, and only grows. A client
that polls from zero on has at each moment seen every message whose number is at or below its
cursor, and after a page with no more to come every message there is, and of each version up
to its cursor that one or a later one. -/
theorem change_log_sound (h : (system kind).Reachable s) :
    s.ledger.messages.map LedgerMessage.seq = List.range' 1 s.ledger.room.lastMessageSeq ∧
    (s.versions.map LedgerMessage.changeSeq).Perm (List.range' 1 s.ledger.room.lastChangeSeq) ∧
    (∀ m ∈ s.ledger.messages, m ∈ s.versions ∧ m.changeSeq ≤ s.ledger.room.lastChangeSeq) ∧
    (∀ m ∈ s.ledger.messages, m.changeSeq ≤ s.poller.cursor → m ∈ s.poller.seen) ∧
    (∀ a s', (system kind).step s a = some s' → ∀ m ∈ s.ledger.messages,
      ∃ m' ∈ s'.ledger.messages, m'.id = m.id ∧ m.changeSeq ≤ m'.changeSeq) ∧
    ∀ limit s', (system kind).step s (.answer limit) = some s' →
      (s.ledger.changesPage s.poller.cursor limit).2 = false →
        (∀ m ∈ s'.ledger.messages, m ∈ s'.poller.seen) ∧
        ∀ v ∈ s'.versions, ∃ m ∈ s'.poller.seen, m.id = v.id ∧ v.changeSeq ≤ m.changeSeq := by
  have hs : s.Logged kind := h.invariant (fun _ hinit => logged_of_init hinit)
    fun _ _ _ hs _ hstep => hs.act hstep
  refine ⟨seqs_eq hs.inOrder.sound.counted, hs.versioned.numbers,
    fun m hm => ⟨hs.versioned.current m hm, hs.versioned.bounded m hm⟩, hs.polled.seen,
    fun a s' hstep m hm => ?_, fun limit s' hstep hmore => ?_⟩
  · rcases act_cases hstep with hcommit | ⟨t, rfl, -⟩ | ⟨i, t, t', -, -, rfl, -⟩ | hreads
    · have hcommit := commit_of_commits hs.inOrder hs.versioned hcommit
      obtain ⟨m', hm', hid⟩ := hcommit.stays m hm
      exact ⟨m', hm', hid, hcommit.changeSeq_le hs.inOrder hs.versioned hm hm' hid⟩
    · exact ⟨m, hm, rfl, le_rfl⟩
    · exact ⟨m, hm, rfl, le_rfl⟩
    · cases hreads with
      | _ => exact ⟨m, hm, rfl, le_rfl⟩
  · have hanswer : LedgerService.act kind s (.answer limit) = some s' := hstep
    obtain ⟨last, hlast, rfl⟩ := act_answer hanswer
    have hseen := (polled_receive hs.versioned hs.polled hlast limit).2 hmore
    refine ⟨hseen, fun v hv => ?_⟩
    obtain ⟨m, hm, hid, hle⟩ := hs.versioned.latest v hv
    exact ⟨m, hseen m hm, hid, hle⟩

/-- Two members write at once, one of them fails, and a client polls in between. -/
theorem change_log_sound_two :
    ∃ s, (system .roomPublic).Reachable s ∧ s.ledger.room.lastChangeSeq = 5 ∧
      s.poller.cursor = 5 ∧ s.ledger.messages.map LedgerMessage.seq = [1, 2, 3] ∧
      (s.versions.map LedgerMessage.changeSeq).Perm [1, 2, 3, 4, 5] ∧
      ∀ m ∈ s.ledger.messages, m.changeSeq ≤ 5 → m ∈ s.poller.seen := by
  have hrun : ((system .roomPublic).run ⟨.empty, [], [], [], ⟨0, none, []⟩⟩
      [.other (.joinRoom 1 71 81), .other (.joinRoom 2 72 82),
        .start (.sendMessage 1 73 83 "hello"), .start (.sendMessage 2 74 84 "so"), .step 1, .step 0,
        .step 1, .fail 1, .ask, .step 0, .step 0, .answer 1, .start (.editMessage 83 "hallo"),
        .step 2, .step 2, .ask, .step 2, .answer 1, .start (.touchMessage .changePin 83),
        .step 3, .step 3, .step 3, .ask, .answer 9]).any
      (fun s => decide (s.ledger.room.lastChangeSeq = 5 ∧ s.poller.cursor = 5 ∧
        s.ledger.room.lastMessageSeq = 3)) = true := by decide +kernel
  obtain ⟨s, hreachable, htest⟩ := TransitionSystem.exists_of_run hrun rfl
  obtain ⟨hlast, hcursor, hmessages⟩ := of_decide_eq_true htest
  obtain ⟨hseqs, hversions, -, hseen, -⟩ := change_log_sound hreachable
  rw [hmessages] at hseqs
  rw [hlast] at hversions
  rw [hcursor] at hseen
  exact ⟨s, hreachable, hlast, hcursor, hseqs, hversions, hseen⟩

end LedgerService

end Hibari
