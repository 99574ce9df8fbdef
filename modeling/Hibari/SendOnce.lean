import Hibari.RoomCommits

/-!
# A message is sent once

A client that gets no answer sends its message again, under the same id of its own. The
server looks for that id with the sender's row locked, which two requests of one sender lock
one after the other; where it finds none it writes the message, and otherwise it returns the
one that it found. So at most one message is written for an id, and the request that wrote
it is the only one that is told so (`sent_once`).

The ids of log lines are drawn by the server, and are part of what clients are sent. A
request that uses the one of its sender's own log line is answered with the log line, and
is told that it was sent before (`log_line_returned`).
-/

namespace Hibari

open List Option

/-- The sender of a message, and what the sender named it. -/
def MessageFrame.key (f : MessageFrame) : Ulid × Ulid := (f.senderId, f.clientMsgId)

namespace RoomLedger

variable {kind : RoomKind} {l l' : RoomLedger} {w : LedgerWrite} {numbers : RoomRecord}
  {rows : List RoomRow} {id : Ulid} {created : Bool}

/-- A transaction adds a message, or none; its id and its name are new. -/
structure Adds (l l' : RoomLedger) (p : Option LedgerMessage) : Prop where
  frames : l'.frames = l.frames ++ (p.map LedgerMessage.frame).toList
  fresh : ∀ x ∈ p, ∀ f ∈ l.frames, f.id ≠ x.id ∧ f.key ≠ x.frame.key

theorem Adds.of_frames (h : l'.frames = l.frames) : Adds l l' none where
  frames := by
    rw [h]
    exact (append_nil _).symm
  fresh x hx := nomatch hx

theorem adds_written (h : l.written kind numbers w = some l') :
    Adds l l' (posted kind l numbers w) where
  frames := (written_leaves h).frames
  fresh x hx f hf := by
    obtain ⟨hid, hclient⟩ := (written_leaves h).fresh x hx f hf
    refine ⟨hid, fun heq => ?_⟩
    obtain ⟨hsender, hname⟩ := Prod.mk_inj.mp heq
    exact hclient hsender hname

/-- Other transactions add log lines. -/
theorem adds_env {a : RoomRunAction} {run : RoomRun} (hrows : envRows a = some rows)
    (h : RoomRun.act kind ⟨l, [], []⟩ a = some run) :
    ∃ p, Adds l run.ledger p ∧ ∀ x ∈ p, x.kind = .system := by
  have hlogged : ∀ (l₀ l' : RoomLedger) (subject clientMsgId id : Ulid) (type : SystemEventType),
      l₀.frames = l.frames → l₀.logged kind subject clientMsgId id type = some l' →
      ∃ p, Adds l l' p ∧ ∀ x ∈ p, x.kind = .system := by
    intro l₀ l' subject clientMsgId id type hframes hlog
    have hadds := adds_written hlog
    refine ⟨some (systemMessage l₀.room.allocateSystemMessageSeq subject clientMsgId id type),
      ⟨?_, ?_⟩, fun x hx => ?_⟩
    · rw [← hframes]
      exact hadds.frames
    · rw [← hframes]
      exact hadds.fresh
    · rw [← some.inj hx]
      rfl
  have hnone : ∀ l' : RoomLedger, l'.frames = l.frames →
      ∃ p, Adds l l' p ∧ ∀ x ∈ p, x.kind = .system := fun l' hframes =>
    ⟨none, .of_frames hframes, nofun⟩
  cases a with
  | joinRoom userId clientMsgId id =>
    obtain ⟨l', hl', rfl⟩ := map_eq_some_iff.mp h
    have hjoin : l.joinRoom kind userId clientMsgId id = some l' := hl'
    unfold joinRoom at hjoin
    split at hjoin
    · cases hjoin
    · split at hjoin
      · cases hjoin
        exact hnone _ (frames_addRoomMember userId)
      · exact hlogged _ _ _ _ _ _ (frames_addRoomMember userId) hjoin
  | leaveRoom userId clientMsgId id removed =>
    obtain ⟨l', hl', rfl⟩ := map_eq_some_iff.mp h
    have hleave : l.leaveRoom kind userId clientMsgId id removed = some l' := hl'
    unfold leaveRoom at hleave
    by_cases hif : (l.isMember userId && decide (kind ≠ .roomDM)) = true
    · rw [if_pos hif] at hleave
      exact hlogged (l.deleteRoomMember userId) _ _ _ _ _ rfl hleave
    · rw [if_neg hif] at hleave
      cases hleave
  | setArchived archived actor clientMsgId id =>
    obtain ⟨l', hl', rfl⟩ := map_eq_some_iff.mp h
    have hset : l.setArchived kind archived actor clientMsgId id = some l' := hl'
    unfold setArchived at hset
    split at hset
    · cases hset
    · obtain ⟨l₁, hlog, rfl⟩ := map_eq_some_iff.mp hset
      obtain ⟨p, hadds, hsystem⟩ := hlogged l l₁ _ _ _ _ rfl hlog
      exact ⟨p, ⟨hadds.frames, hadds.fresh⟩, hsystem⟩
  | leaveWorkspace | markThreadRead =>
    cases h
    exact hnone _ rfl
  | followThread =>
    obtain ⟨l', hl', rfl⟩ := map_eq_some_iff.mp h
    have hsame := sameButThreads_followFromNow hl'
    refine hnone l' ?_
    rw [hsame]
    rfl
  | _ => exact absurd hrows (by simp [envRows])

/-- **What a request to send writes**, where it writes. -/
theorem posted_of_key {key : Ulid × Ulid} (hkey : w.key = some key)
    (h : l.written kind numbers w = some l') :
    ∃ p, posted kind l numbers w = some p ∧ p.kind = .user ∧ p.frame.key = key ∧
      w.outcome = .sent p.id true := by
  cases w with
  | sendMessage =>
    cases hkey
    exact ⟨_, rfl, rfl, rfl, rfl⟩
  | sendThreadReply actor clientMsgId id root body alsoInChannel =>
    cases hkey
    unfold written at h
    cases hroot : l.getMessage root with
    | none => simp [hroot] at h
    | some m =>
      refine ⟨userMessage numbers (numbers.lastChangeSeq - 1) actor clientMsgId id body (some root)
        (some (m.lastThreadSeq + 1)) alsoInChannel, ?_, rfl, rfl, rfl⟩
      rw [posted, hroot]
      rfl
  | _ => exact absurd hkey (by simp [LedgerWrite.key])

/-- Nothing else writes what a user says. -/
theorem system_of_key_none (hkey : w.key = none) :
    ∀ p ∈ posted kind l numbers w, p.kind = .system := by
  cases w with
  | sendMessage => exact absurd hkey (by simp [LedgerWrite.key])
  | sendThreadReply =>
    exact absurd hkey (by simp [LedgerWrite.key])
  | writeSystemMessage | writeHuddleMessage =>
    intro p hp
    rw [← some.inj hp]
    rfl
  | _ => exact fun p hp => absurd hp (by simp [posted])

/-- What a sender is told was sent before is there. -/
theorem exists_of_readSender {actor clientMsgId : Ulid}
    (h : l.readSender actor clientMsgId = some (.sent id created)) :
    ∃ f ∈ l.frames, f.id = id ∧ f.key = (actor, clientMsgId) := by
  unfold readSender at h
  split at h
  · obtain ⟨x, hx, hsent⟩ := map_eq_some_iff.mp h
    obtain ⟨m, hm, rfl⟩ := map_eq_some_iff.mp hx
    have hkey := find?_some hm
    obtain ⟨hsender, hclient⟩ := of_decide_eq_true hkey
    refine ⟨m.frame, List.mem_map_of_mem (mem_of_find?_eq_some hm), ?_, ?_⟩
    · exact (LedgerOutcome.sent.inj hsent).1
    · exact Prod.mk_inj.mpr ⟨hsender, hclient⟩
  · cases h

theorem exists_of_read {r : RoomRow} (h : l.read w r = some (.sent id created)) :
    ∃ key, w.key = some key ∧ ∃ f ∈ l.frames, f.id = id ∧ f.key = key := by
  have hended : ∀ b : Bool, (if b then none else some LedgerOutcome.ended)
      ≠ some (.sent id created) := fun b => by
    cases b <;> simp
  cases w with
  | sendMessage => exact ⟨_, rfl, exists_of_readSender h⟩
  | sendThreadReply =>
    cases r with
    | roomMember => exact ⟨_, rfl, exists_of_readSender h⟩
    | _ => exact absurd h (hended _)
  | _ => exact absurd h (hended _)

end RoomLedger

open RoomLedger

/-! ## What a request is told -/

/-- **What a request that has succeeded is told**: a message that is there, under the name
that it was sent by; that it was created only where a user has said it. -/
def LedgerTask.Tells (l : RoomLedger) (t : LedgerTask) : Prop :=
  ∀ w id created, t = .done w (.sent id created) →
    ∃ f ∈ l.frames, f.id = id ∧ w.key = some f.key ∧ (created = true → f.kind = .user)

theorem LedgerTask.Tells.mono {l l' : RoomLedger} {t : LedgerTask} (h : t.Tells l)
    (hframes : l.frames ⊆ l'.frames) : t.Tells l' := by
  intro w id created heq
  obtain ⟨f, hf, hrest⟩ := h w id created heq
  exact ⟨f, hframes hf, hrest⟩

namespace LedgerService

variable {kind : RoomKind} {s s' : LedgerService} {a : LedgerServiceAction} {i : ℕ} {t : LedgerTask}
  {p : Option LedgerMessage} {t' : LedgerTask} {key : Ulid × Ulid} {id : Ulid}
    {created : Bool} {j : ℕ}

/-- A request to send has succeeded, and has returned a message. -/
def Returned (s : LedgerService) (i : ℕ) (key : Ulid × Ulid) (id : Ulid) (created : Bool) : Prop :=
  ∃ w : LedgerWrite, w.key = some key ∧ s.tasks[i]? = some (LedgerTask.done w (.sent id created))

/-- **What a room's requests to send have come to**: names are given once, what a request
is told is so, and each message of a user was created by one request, which was told. -/
structure Told (s : LedgerService) : Prop where
  keys : (s.ledger.frames.map MessageFrame.key).Nodup
  tells : ∀ t ∈ s.tasks, t.Tells s.ledger
  once : ∀ i j key key' id, s.Returned i key id true → s.Returned j key' id true → i = j
  first : ∀ f ∈ s.ledger.frames, f.kind = .user → ∃ i, s.Returned i f.key f.id true

/-- A name that is new is given once, too. -/
theorem keys_nodup {l l' : RoomLedger}
    (hkeys : (l.frames.map MessageFrame.key).Nodup) (h : l.Adds l' p) :
    (l'.frames.map MessageFrame.key).Nodup := by
  rw [h.frames, map_append]
  cases p with
  | none =>
    rw [map_none, toList_none, map_nil, append_nil]
    exact hkeys
  | some x =>
    rw [map_some, toList_some, map_singleton]
    refine nodup_append.mpr ⟨hkeys, nodup_singleton _, fun k hk k' hk' => ?_⟩
    obtain ⟨f, hf, rfl⟩ := List.mem_map.mp hk
    rw [mem_singleton.mp hk']
    exact (h.fresh x rfl f hf).2

theorem frames_subset {l l' : RoomLedger} (h : l.Adds l' p) : l.frames ⊆ l'.frames := by
  rw [h.frames]
  exact subset_append_left _ _

theorem mem_frames {l l' : RoomLedger} (h : l.Adds l' p)
    {f : MessageFrame} (hf : f ∈ l'.frames) : f ∈ l.frames ∨ ∃ x ∈ p, f = x.frame := by
  rw [h.frames] at hf
  rcases mem_append.mp hf with hf | hf
  · exact .inl hf
  · obtain ⟨x, hx, rfl⟩ := map_eq_some_iff.mp (mem_toList.mp hf)
    exact .inr ⟨x, hx, rfl⟩

/-- A request that goes on returns what was there. -/
theorem tells_of_goes (h : Goes kind s t t')
    (hnot : ∀ w id, t' ≠ .done w (.sent id true)) : t'.Tells s.ledger := by
  intro w id created heq
  obtain ⟨r, hread⟩ := h.told w id created heq
  obtain ⟨key, hkey, f, hf, hid, hkey'⟩ := exists_of_read hread
  refine ⟨f, hf, hid, hkey.trans (congrArg some hkey'.symm), fun hcreated => ?_⟩
  rw [hcreated] at heq
  exact absurd heq (hnot w id)

/-- What was returned stays so when others go on. -/
theorem returned_goes
    (hi : s.tasks[i]? = some t) (hnot : ∀ w o, t ≠ .done w o) (h : s.Returned j key id created) :
    (s.goes i t').Returned j key id created := by
  obtain ⟨w, hkey, hj⟩ := h
  refine ⟨w, hkey, ?_⟩
  have hne : i ≠ j := fun heq => by
    rw [heq, hj] at hi
    exact hnot _ _ (some.inj hi).symm
  show (s.tasks.set i t')[j]? = _
  rw [getElem?_set_ne hne]
  exact hj

/-- What is returned now was so before, or is what the request ends with that goes on. -/
theorem returned_of_goes (h : (s.goes i t').Returned j key id created) :
    s.Returned j key id created ∨
      j = i ∧ ∃ w : LedgerWrite, w.key = some key ∧ t' = .done w (.sent id created) := by
  obtain ⟨w, hkey, hj⟩ := h
  rcases HeldRows.getElem?_set_cases hj with ⟨rfl, heq⟩ | ⟨-, hj⟩
  · exact .inr ⟨rfl, w, hkey, heq.symm⟩
  · exact .inl ⟨w, hkey, hj⟩

/-- A request ends that has created nothing. -/
theorem Told.goes (hs : s.Told) (hi : s.tasks[i]? = some t)
    (hnot : ∀ w o, t ≠ .done w o) (htells : t'.Tells s.ledger)
    (hcreated : ∀ w id, t' ≠ .done w (.sent id true)) : (s.goes i t').Told where
  keys := hs.keys
  tells u hu := by
    rcases mem_or_eq_of_mem_set hu with hu | rfl
    · exact hs.tells u hu
    · exact htells
  once j k key key' id hj hk := by
    rcases returned_of_goes hj with hj | ⟨-, w, -, heq⟩
    · rcases returned_of_goes hk with hk | ⟨-, w, -, heq⟩
      · exact hs.once j k key key' id hj hk
      · exact absurd heq (hcreated w id)
    · exact absurd heq (hcreated w id)
  first f hf huser := by
    obtain ⟨j, hj⟩ := hs.first f hf huser
    exact ⟨j, returned_goes hi hnot hj⟩

theorem key_of_outcome {w : LedgerWrite}
    (h : w.outcome = .sent id created) : ∃ key, w.key = some key := by
  cases w with
  | sendMessage actor clientMsgId x body
  | sendThreadReply => exact ⟨_, rfl⟩
  | _ => exact absurd h (by simp [LedgerWrite.outcome])

/-- What a request that has written returns was not there before. -/
theorem posted_of_outcome {w : LedgerWrite} {l : RoomLedger} {numbers : RoomRecord} (hl : s.ledger.written kind numbers w = some l)
    (h : w.outcome = .sent id created) :
    ∃ p ∈ RoomLedger.posted kind s.ledger numbers w,
      p.kind = .user ∧ w.key = some p.frame.key ∧ p.id = id := by
  obtain ⟨key, hkey⟩ := key_of_outcome h
  obtain ⟨p, hp, huser, hpkey, houtcome⟩ := posted_of_key hkey hl
  rw [h] at houtcome
  refine ⟨p, hp, huser, hkey.trans (congrArg some hpkey.symm), ?_⟩
  exact (LedgerOutcome.sent.inj houtcome).1.symm

variable (hs : s.Told)
include hs

/-- **A request commits**: it is told so, and no one else was told the same. -/
theorem Told.write {w : LedgerWrite} {held : List RoomRow} {numbers : RoomRecord} {l : RoomLedger} (hi : s.tasks[i]? = some (.writing w held [] numbers))
    (hl : s.ledger.written kind numbers w = some l) :
    ((s.commits w.deletes l).goes i (.done w w.outcome)).Told := by
  have hadds := adds_written hl
  have hnew : ∀ {j key id}, s.Returned j key id true → w.outcome ≠ .sent id true := by
    intro j key id hj heq
    obtain ⟨p, hp, -, -, hid⟩ := posted_of_outcome hl heq
    obtain ⟨w', -, hj⟩ := hj
    obtain ⟨f, hf, hfid, -⟩ := hs.tells _ (mem_of_getElem? hj) w' id true rfl
    exact (hadds.fresh p hp f hf).1 (hfid.trans hid.symm)
  refine ⟨keys_nodup hs.keys hadds, fun u hu => ?_, fun j k key key' id hj hk => ?_,
    fun f hf huser => ?_⟩
  · rcases mem_or_eq_of_mem_set hu with hu | rfl
    · exact (hs.tells u hu).mono (frames_subset hadds)
    · intro w' id created heq
      obtain ⟨rfl, houtcome⟩ := LedgerTask.done.inj heq
      obtain ⟨p, hp, huser, hkey, hid⟩ := posted_of_outcome hl houtcome
      refine ⟨p.frame, ?_, hid, hkey, fun _ => huser⟩
      show p.frame ∈ l.frames
      rw [hadds.frames]
      refine mem_append_right _ (mem_toList.mpr ?_)
      exact map_eq_some_iff.mpr ⟨p, hp, rfl⟩
  · rcases returned_of_goes hj with hj | ⟨rfl, x, -, hjdone⟩
    · rcases returned_of_goes hk with hk | ⟨-, x, -, hkdone⟩
      · exact hs.once j k key key' id hj hk
      · exact absurd (LedgerTask.done.inj hkdone).2 (hnew hj)
    · rcases returned_of_goes hk with hk | ⟨rfl, -⟩
      · exact absurd (LedgerTask.done.inj hjdone).2 (hnew hk)
      · rfl
  · rcases mem_frames hadds hf with hf | ⟨x, hx, rfl⟩
    · obtain ⟨j, hj⟩ := hs.first f hf huser
      exact ⟨j, returned_goes (s := s.commits w.deletes l) hi (by simp) hj⟩
    · cases hkey : w.key with
      | none =>
        have hsystem := system_of_key_none hkey x hx
        have huser : x.kind = .user := huser
        rw [huser] at hsystem
        cases hsystem
      | some =>
        obtain ⟨p, hp, -, hpkey, houtcome⟩ := posted_of_key hkey hl
        have hxp : x = p := mem_unique hx hp
        refine ⟨i, w, ?_, ?_⟩
        · rw [hkey, hxp, hpkey]
        · have hlt := (List.getElem?_eq_some_iff.mp hi).1
          show (s.tasks.set i _)[i]? = _
          rw [getElem?_set_self hlt, houtcome, hxp]
          rfl

/-- Something else commits. -/
theorem Told.other {b : RoomRunAction} {rows : List RoomRow} {run : RoomRun}
    (hrows : envRows b = some rows) (hrun : RoomRun.act kind ⟨s.ledger, [], []⟩ b = some run) :
    (s.commits none run.ledger).Told := by
  obtain ⟨p, hadds, hsystem⟩ := adds_env hrows hrun
  refine ⟨keys_nodup hs.keys hadds, fun u hu => (hs.tells u hu).mono (frames_subset hadds),
    hs.once, fun f hf huser => ?_⟩
  rcases mem_frames hadds hf with hf | ⟨x, hx, rfl⟩
  · exact hs.first f hf huser
  · have huser : x.kind = .user := huser
    rw [hsystem x hx] at huser
    cases huser

/-- A request begins. -/
theorem Told.start (hnot : ∀ w id created, t ≠ .done w (.sent id created)) :
    Told { s with tasks := s.tasks ++ [t] } := by
  have hold : ∀ {j key id}, Returned { s with tasks := s.tasks ++ [t] } j key id true →
      s.Returned j key id true := by
    intro j key id hj
    obtain ⟨w, hkey, hj⟩ := hj
    rcases HeldRows.getElem?_concat_cases hj with ⟨-, heq⟩ | hj
    · exact absurd heq.symm (hnot w id true)
    · exact ⟨w, hkey, hj⟩
  refine ⟨hs.keys, fun u hu => ?_, fun j k key key' id hj hk => ?_, fun f hf huser => ?_⟩
  · rcases mem_append.mp hu with hu | hu
    · exact hs.tells u hu
    · rw [mem_singleton.mp hu]
      exact fun w id created heq => absurd heq (hnot w id created)
  · exact hs.once j k key key' id (hold hj) (hold hk)
  · obtain ⟨j, w, hkey, hj⟩ := hs.first f hf huser
    refine ⟨j, w, hkey, ?_⟩
    have hlt := (List.getElem?_eq_some_iff.mp hj).1
    show (s.tasks ++ [t])[j]? = _
    rw [getElem?_append_left hlt]
    exact hj

variable (h : act kind s a = some s')
include h

theorem Told.act : s'.Told := by
  rcases act_cases h with hcommit | ⟨t, rfl, -, -, hnot⟩ |
    ⟨i, t, t', hi, hnot, rfl, hgoes, hcreated⟩ | hreads
  · cases hcommit with
    | write hi hl => exact hs.write hi hl
    | other hrows _ hrun => exact hs.other hrows hrun
  · exact hs.start hnot
  · exact hs.goes hi hnot (tells_of_goes hgoes hcreated) hcreated
  · cases hreads with
    | _ => exact ⟨hs.keys, hs.tells, hs.once, hs.first⟩

omit h

omit hs

theorem told_of_init (h : (system kind).init s) : s.Told := by
  rw [show s = ⟨.empty, [], [], [], ⟨0, none, []⟩⟩ from h]
  exact ⟨nodup_nil, fun t ht => absurd ht not_mem_nil,
    fun i _ _ _ _ ⟨_, _, hi⟩ => (nomatch hi), fun f hf => absurd hf not_mem_nil⟩

/-- Others see nothing of a step: no number was taken, nothing was written or sent. -/
structure Silent (s s' : LedgerService) : Prop where
  ledger : s'.ledger = s.ledger
  versions : s'.versions = s.versions
  delivered : s'.delivered = s.delivered

include h

/-- A transaction keeps its place and its purpose, and what has ended is not begun again. -/
theorem stays_done (hi : s.tasks[i]? = some t) :
    ∃ t', s'.tasks[i]? = some t' ∧ t'.write = t.write ∧ ((∃ w o, t = .done w o) → t' = t) := by
  have hset : ∀ {j : ℕ} {u u' : LedgerTask}, s.tasks[j]? = some u → (∀ w o, u ≠ .done w o) →
      u'.write = u.write → ∃ t', (s.tasks.set j u')[i]? = some t' ∧ t'.write = t.write ∧
        ((∃ w o, t = .done w o) → t' = t) := by
    intro j u u' hj hnot hwrite
    by_cases hji : j = i
    · subst hji
      obtain rfl := some.inj (hj.symm.trans hi)
      refine ⟨u', ?_, hwrite, fun ⟨w, o, hdone⟩ => absurd hdone (hnot w o)⟩
      rw [getElem?_set_self (List.getElem?_eq_some_iff.mp hi).1]
    · refine ⟨t, ?_, rfl, fun _ => rfl⟩
      rw [getElem?_set_ne hji]
      exact hi
  rcases act_cases h with hcommit | ⟨u, rfl, -⟩ | ⟨j, u, u', hj, hnot, rfl, hgoes, -⟩ | hreads
  · cases hcommit with
    | write hj => exact hset hj (by simp) rfl
    | other => exact ⟨t, hi, rfl, fun _ => rfl⟩
  · refine ⟨t, ?_, rfl, fun _ => rfl⟩
    show (s.tasks ++ [u])[i]? = some t
    rw [getElem?_append_left (List.getElem?_eq_some_iff.mp hi).1]
    exact hi
  · exact hset hj hnot hgoes.write
  · cases hreads with
    | _ => exact ⟨t, hi, rfl, fun _ => rfl⟩

/-- **Only a request that creates its message does anything that others see.** -/
theorem silent_or_returned
    (ha : a = .step i ∨ a = .fail i) (hi : s.tasks[i]? = some t) (hkey : t.write.key = some key) :
    Silent s s' ∨ ∃ id, s'.Returned i key id true := by
  rcases act_cases h with hcommit | ⟨u, rfl, -⟩ | ⟨j, u, u', -, -, rfl, -⟩ | hreads
  · cases hcommit with
    | @write j w held numbers l hj hl =>
      have hji : j = i := by simpa using ha
      subst hji
      obtain rfl := some.inj (hj.symm.trans hi)
      obtain ⟨p, -, -, -, houtcome⟩ := posted_of_key hkey hl
      refine .inr ⟨p.id, w, hkey, ?_⟩
      have houtcome : w.outcome = .sent p.id true := houtcome
      show (s.tasks.set j _)[j]? = _
      rw [getElem?_set_self (List.getElem?_eq_some_iff.mp hj).1, houtcome]
    | other => exact nomatch ha
  · exact .inl ⟨rfl, rfl, rfl⟩
  · exact .inl ⟨rfl, rfl, rfl⟩
  · cases hreads with
    | _ => exact .inl ⟨rfl, rfl, rfl⟩

omit h

/-- **A message is sent once.** In every run of requests that run at once, are repeated and
may fail, there is at most one message of a sender under a name; every request under that
name that succeeds returns it, and if a user has said it then exactly one of them created
it; none has if it is a log line. Nothing is seen of a request but the message that it has
created. -/
theorem sent_once (h : (system kind).Reachable s) :
    (∀ f ∈ s.ledger.frames, ∀ g ∈ s.ledger.frames, f.key = g.key → f = g) ∧
    (∀ i key id created, s.Returned i key id created →
      ∃ f ∈ s.ledger.frames, f.key = key ∧ f.id = id) ∧
    (∀ f ∈ s.ledger.frames, f.kind = .user → ∃! i, ∃ id, s.Returned i f.key id true) ∧
    (∀ f ∈ s.ledger.frames, f.kind = .system → ∀ i id, ¬ s.Returned i f.key id true) ∧
    ∀ a s', (system kind).step s a = some s' →
      (∀ (i : ℕ) (t : LedgerTask), s.tasks[i]? = some t → ∃ t', s'.tasks[i]? = some t' ∧
        t'.write = t.write ∧ ((∃ w o, t = .done w o) → t' = t)) ∧
      (∀ w, a = .start w → Silent s s') ∧
      ∀ (i : ℕ) (t : LedgerTask) key, a = .step i ∨ a = .fail i → s.tasks[i]? = some t → t.write.key = some key →
        Silent s s' ∨ ∃ id, s'.Returned i key id true := by
  have hs : s.Told := h.invariant (fun _ hinit => told_of_init hinit)
    fun _ _ _ hs _ hstep => hs.act hstep
  have hkeys : ∀ f ∈ s.ledger.frames, ∀ g ∈ s.ledger.frames, f.key = g.key → f = g :=
    inj_on_of_nodup_map hs.keys
  have hreturned : ∀ i key id created, s.Returned i key id created →
      ∃ f ∈ s.ledger.frames, f.key = key ∧ f.id = id ∧ (created = true → f.kind = .user) := by
    intro i key id created ⟨w, hkey, hi⟩
    obtain ⟨f, hf, hid, hkey', huser⟩ := hs.tells _ (mem_of_getElem? hi) w id created rfl
    exact ⟨f, hf, Option.some.inj (hkey'.symm.trans hkey), hid, huser⟩
  refine ⟨hkeys, fun i key id created hi => ?_, fun f hf huser => ?_, fun f hf hsystem i id hi => ?_,
    fun a s' hstep => ⟨fun i t hi => stays_done hstep hi, fun w ha => ?_, fun i t key ha hi hkey =>
      silent_or_returned hstep ha hi hkey⟩⟩
  · obtain ⟨f, hf, hkey, hid, -⟩ := hreturned i key id created hi
    exact ⟨f, hf, hkey, hid⟩
  · obtain ⟨i, hi⟩ := hs.first f hf huser
    refine ⟨i, ⟨f.id, hi⟩, fun j hj => ?_⟩
    obtain ⟨id, hj⟩ := hj
    obtain ⟨g, hg, hkey, hid, -⟩ := hreturned j f.key id true hj
    obtain rfl := hkeys g hg f hf hkey
    rw [← hid] at hj
    exact hs.once j i _ _ _ hj hi
  · obtain ⟨g, hg, hkey, -, huser⟩ := hreturned i f.key id true hi
    have hgf := hkeys g hg f hf hkey
    rw [← hgf, huser rfl] at hsystem
    exact nomatch hsystem
  · subst ha
    cases hstep
    exact ⟨rfl, rfl, rfl⟩

/-- Two requests of one name run at once, and a third fails: one message, one creation. -/
theorem sent_once_two : ∃ s, (system .roomPublic).Reachable s ∧ s.Returned 0 (1, 73) 83 true ∧
      s.Returned 1 (1, 73) 83 false ∧ ∃! i, ∃ id, s.Returned i (1, 73) id true := by
  have hrun : ((system .roomPublic).run ⟨.empty, [], [], [], ⟨0, none, []⟩⟩
      [.other (.joinRoom 1 71 81), .start (.sendMessage 1 73 83 "hello"),
        .start (.sendMessage 1 73 84 "hello"), .start (.sendMessage 1 73 85 "hello"),
        .step 0, .step 0, .fail 2, .step 0, .step 1]).any
      (fun s => decide (s.tasks[0]? = some (.done (.sendMessage 1 73 83 "hello") (.sent 83 true)) ∧
        s.tasks[1]? = some (.done (.sendMessage 1 73 84 "hello") (.sent 83 false)) ∧
        s.ledger.frames.any (fun f => decide (f.key = (1, 73) ∧ f.kind = .user)))) = true := by
    decide +kernel
  obtain ⟨s, hreachable, htest⟩ := TransitionSystem.exists_of_run hrun rfl
  obtain ⟨hzero, hone, hframe⟩ := of_decide_eq_true htest
  obtain ⟨f, hf, hftest⟩ := List.any_eq_true.mp hframe
  obtain ⟨hkey, huser⟩ := of_decide_eq_true hftest
  obtain ⟨-, -, hunique, -⟩ := sent_once hreachable
  have honly := hunique f hf huser
  rw [hkey] at honly
  exact ⟨s, hreachable, ⟨_, rfl, hzero⟩, ⟨_, rfl, hone⟩, honly⟩

/-- **A log line is returned**: a member sends a message under the name that the server drew
for the line of its own joining. The request succeeds, and no request has created anything. -/
theorem log_line_returned :
    ∃ s, (system .roomPublic).Reachable s ∧ (∃ i id, s.Returned i (1, 71) id false) ∧
      ¬ ∃ i id, s.Returned i (1, 71) id true := by
  have hrun : ((system .roomPublic).run ⟨.empty, [], [], [], ⟨0, none, []⟩⟩
      [.other (.joinRoom 1 71 81), .start (.sendMessage 1 71 83 "hello"), .step 0]).any
      (fun s => decide (s.tasks = [.done (.sendMessage 1 71 83 "hello") (.sent 81 false)])) = true := by
    decide +kernel
  obtain ⟨s, hreachable, htest⟩ := TransitionSystem.exists_of_run hrun rfl
  have htasks := of_decide_eq_true htest
  refine ⟨s, hreachable, ⟨0, 81, .sendMessage 1 71 83 "hello", rfl, ?_⟩, ?_⟩
  · rw [htasks]
    rfl
  · rintro ⟨i, id, w, -, hi⟩
    rw [htasks, getElem?_singleton] at hi
    split at hi
    · exact nomatch hi
    · exact nomatch hi

end LedgerService

end Hibari
