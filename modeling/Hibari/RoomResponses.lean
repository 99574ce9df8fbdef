import Hibari.RoomCopies

/-!
# An answer that undoes an event

A room that a client has is not ahead of the server, and – while what comes over an answer on its way was
there when the answer was read – not ahead of the answer either (`Sound`). So an answer takes nothing back
(`responses_never_undo`). An event that comes in between is undone (`response_undoes_message`).
-/

namespace Hibari

open List Option Function RoomCopy.NumbersLe

namespace RoomCopy

variable {a b c : RoomCopy}

theorem NumbersLe.refl (a : RoomCopy) : a.NumbersLe a :=
  ⟨le_rfl, le_rfl, fun x hx => ⟨x, hx, le_rfl⟩, fun x hx => ⟨x, hx, le_rfl⟩⟩

theorem NumbersLe.trans (h : a.NumbersLe b) (h' : b.NumbersLe c) : a.NumbersLe c := by
  refine ⟨h.lastMessageSeq.trans h'.lastMessageSeq, h.lastUserSeq.trans h'.lastUserSeq,
    fun x hx => ?_, fun x hx => ?_⟩
  · obtain ⟨y, hy, hxy⟩ := h.lastReadSeq x hx
    obtain ⟨z, hz, hyz⟩ := h'.lastReadSeq y hy
    exact ⟨z, hz, hxy.trans hyz⟩
  · obtain ⟨y, hy, hxy⟩ := h.lastReadUserSeq x hx
    obtain ⟨z, hz, hyz⟩ := h'.lastReadUserSeq y hy
    exact ⟨z, hz, hxy.trans hyz⟩

/-- Only the numbers matter. -/
theorem NumbersLe.of_eq (h : a.NumbersLe b)
    (hnumbers : c.room.lastMessageSeq = a.room.lastMessageSeq ∧ c.room.lastUserSeq = a.room.lastUserSeq ∧
      c.room.lastReadSeq = a.room.lastReadSeq ∧ c.room.lastReadUserSeq = a.room.lastReadUserSeq) :
    c.NumbersLe b := by
  obtain ⟨hlast, huser, hread, hreadUser⟩ := hnumbers
  refine ⟨hlast ▸ h.lastMessageSeq, huser ▸ h.lastUserSeq, ?_, ?_⟩
  · rw [hread]
    exact h.lastReadSeq
  · rw [hreadUser]
    exact h.lastReadUserSeq

end RoomCopy

namespace CopyState

variable {userId : Ulid} {s s' : CopyState} {e : RoomEvent} {copy : RoomCopy} {r : Ulid} {j k : ℕ}
  {a : CopyAction}

theorem serverAt_succ (he : s.log[j]? = some e) :
    s.serverAt (j + 1) = update (s.serverAt j) e.roomId e.after := by
  show (s.log.take (j + 1)).foldl _ s.base = _
  rw [take_add_one, he, foldl_append]
  rfl

/-- A room that is from no later moment than one. -/
structure From (s : CopyState) (copy : RoomCopy) (r : Ulid) (k : ℕ) : Prop where
  numbers : copy.NumbersLe (s.serverAt k r)
  huddle : ∀ h ∈ copy.huddle, ∃ j ≤ k, (s.serverAt j r).huddle = some h

/-- Only the history matters. -/
theorem From.congr (hc : s.From copy r k) (hbase : s'.base = s.base) (hlog : s'.log = s.log) :
    s'.From copy r k := by
  have heq : s'.serverAt = s.serverAt := by
    funext j
    unfold serverAt
    rw [hbase, hlog]
  refine ⟨?_, ?_⟩
  · rw [heq]
    exact hc.numbers
  · rw [heq]
    exact hc.huddle

/-- **What is kept**: the history grows, and the rooms of the client are not ahead of it, nor of an answer
on its way. -/
structure Sound (userId : Ulid) (s : CopyState) : Prop where
  grows : ∀ j e, s.log[j]? = some e → (s.serverAt j e.roomId).NumbersLe e.after ∧ e.Tells userId
  huddles : ∀ r j k, j ≤ k → k ≤ s.log.length → (s.serverAt j r).HuddleLe (s.serverAt k r)
  readLe : ∀ q ∈ s.inflight, ∀ k ∈ q.read, k ≤ s.log.length
  rooms : ∀ r copy, s.rooms r = some copy → s.From copy r s.log.length ∧
    ∀ q ∈ s.inflight, r ∈ q.key.roomIds → ∀ k ∈ q.read, s.From copy r k

theorem sound_of_init (hs : (system userId).init s) : s.Sound userId := by
  obtain ⟨hlog, hinflight, hrooms⟩ := hs
  refine ⟨fun j e he => ?_, fun r j k hjk hk => ?_, fun q hq => ?_, fun r copy hc => ?_⟩
  · rw [hlog] at he
    cases he
  · -- there is one moment, and one version
    rw [hlog] at hk
    obtain rfl : k = 0 := Nat.le_zero.mp hk
    obtain rfl : j = 0 := Nat.le_zero.mp hjk
    intro h hh h' hh' _
    rw [mem_unique hh hh']
  · rw [hinflight] at hq
    cases hq
  · rw [hrooms] at hc
    cases hc

variable (h : s.Sound userId)
include h

/-- The numbers grow. -/
theorem Sound.numbersLe (r : Ulid) (hjk : j ≤ k) (hk : k ≤ s.log.length) :
    (s.serverAt j r).NumbersLe (s.serverAt k r) := by
  induction k, hjk using Nat.le_induction with
  | base => exact refl _
  | succ k _ ih =>
    refine (ih (Nat.le_of_succ_le hk)).trans ?_
    obtain ⟨e, he⟩ : ∃ e, s.log[k]? = some e := ⟨_, getElem?_eq_getElem hk⟩
    rw [serverAt_succ he]
    by_cases hr : r = e.roomId
    · rw [hr, update_self]
      exact (h.grows k e he).1
    · rw [update_of_ne hr]
      exact refl _

omit h

theorem From.later (hc : s.From copy r j) (h : s.Sound userId) (hjk : j ≤ k)
    (hk : k ≤ s.log.length) : s.From copy r k := by
  refine ⟨hc.numbers.trans (h.numbersLe r hjk hk), fun x hx => ?_⟩
  obtain ⟨i, hi, heq⟩ := hc.huddle x hx
  exact ⟨i, hi.trans hjk, heq⟩

/-- **An event that is no news** moves no number and no huddle. -/
theorem From.of_old (hc : s.From copy r k) {notice : CopyNotice} (hold : ¬ copy.News notice) :
    s.From (copy.receive userId notice) r k := by
  cases notice with
  | created m =>
    have heq : applyMessageToRoom copy.room m userId true = copy.room :=
      applyNotice_message_of_old fun hch => not_lt.mp fun hlt => hold ⟨hch, hlt⟩
    refine ⟨hc.numbers.of_eq ?_, hc.huddle⟩
    show (applyMessageToRoom copy.room m userId true).lastMessageSeq = _ ∧ _
    rw [show (copy.receive userId (.created m)).room = copy.room from heq, heq]
    exact ⟨rfl, rfl, rfl, rfl⟩
  | changed m =>
    refine ⟨hc.numbers.of_eq ?_, hc.huddle⟩
    show (applyMessageToRoom copy.room m userId false).lastMessageSeq = _ ∧
      (applyMessageToRoom copy.room m userId false).lastUserSeq = _ ∧
      (applyMessageToRoom copy.room m userId false).lastReadSeq = _ ∧
      (applyMessageToRoom copy.room m userId false).lastReadUserSeq = _
    simp only [applyMessageToRoom, Bool.not_false, if_true]
    split_ifs <;> exact ⟨rfl, rfl, rfl, rfl⟩
  | read n =>
    refine ⟨hc.numbers.of_eq ?_, hc.huddle⟩
    show (applyReadToRoom copy.room n).lastMessageSeq = _ ∧
      (applyReadToRoom copy.room n).lastUserSeq = _ ∧
      (applyReadToRoom copy.room n).lastReadSeq = _ ∧
      (applyReadToRoom copy.room n).lastReadUserSeq = _
    obtain ⟨hread, hreadUser⟩ := not_or.mp hold
    unfold applyReadToRoom
    cases ha : copy.room.lastReadSeq with
    | none => exact ⟨rfl, rfl, ha, rfl⟩
    | some =>
      cases hb : copy.room.lastReadUserSeq with
      | none => exact ⟨rfl, rfl, ha, hb⟩
      | some =>
        rw [ha] at hread
        rw [hb] at hreadUser
        exact ⟨rfl, rfl, congrArg some (max_eq_left (not_lt.mp hread)),
          congrArg some (max_eq_left (not_lt.mp hreadUser))⟩
  | huddle h =>
    have heq : newerHuddle copy.huddle h = copy.huddle := not_not.mp hold
    refine ⟨hc.numbers.of_eq ⟨rfl, rfl, rfl, rfl⟩, ?_⟩
    show ∀ x ∈ newerHuddle copy.huddle h, _
    rw [heq]
    exact hc.huddle

/-- **An event** that had happened by a moment leaves a room from no later moment. -/
theorem From.receive (hc : s.From copy e.roomId k) (h : s.Sound userId) (he : s.log[j]? = some e)
    (hjk : j < k) (hk : k ≤ s.log.length) : s.From (copy.receive userId e.notice) e.roomId k := by
  by_cases hnews : copy.News e.notice
  · have hafter : s.serverAt (j + 1) e.roomId = e.after := by
      rw [serverAt_succ he, update_self]
    have hle : e.after.NumbersLe (s.serverAt k e.roomId) := hafter ▸ h.numbersLe e.roomId hjk hk
    have htells := (h.grows j e he).2
    unfold RoomEvent.Tells at htells
    cases hn : e.notice with
    | created m =>
      rw [hn] at htells hnews
      obtain ⟨hch, hlt⟩ := hnews
      obtain ⟨hlast, huser, hmine⟩ := htells hch
      refine ⟨?_, hc.huddle⟩
      have hseq := hlast ▸ hle.lastMessageSeq
      have huserSeq := huser ▸ hle.lastUserSeq
      show RoomCopy.NumbersLe { copy with room := applyMessageToRoom copy.room m userId true } _
      unfold applyMessageToRoom
      rw [hch, if_neg (by decide), if_neg (by decide), if_neg hlt.not_ge]
      refine ⟨hseq, huserSeq, fun x hx => ?_, fun x hx => ?_⟩
      · replace hx : x ∈ if copy.room.lastReadSeq.isSome ∧ isMine userId m then some m.seq
          else copy.room.lastReadSeq := hx
        split at hx
        · next hand =>
          exact hle.lastReadSeq x ((hmine hand.2).1 ▸ hx)
        · exact hc.numbers.lastReadSeq x hx
      · replace hx : x ∈ if copy.room.lastReadUserSeq.isSome ∧ isMine userId m then some m.userSeq
          else copy.room.lastReadUserSeq := hx
        split at hx
        · next hand =>
          exact hle.lastReadUserSeq x ((hmine hand.2).2 ▸ hx)
        · exact hc.numbers.lastReadUserSeq x hx
    | changed =>
      rw [hn] at hnews
      exact absurd hnews id
    | read n =>
      rw [hn] at htells
      refine ⟨⟨?_, ?_, fun x hx => ?_, fun x hx => ?_⟩, hc.huddle⟩
      · show (applyReadToRoom copy.room n).lastMessageSeq ≤ _
        unfold applyReadToRoom
        split
        · exact hc.numbers.lastMessageSeq
        · exact hc.numbers.lastMessageSeq
      · show (applyReadToRoom copy.room n).lastUserSeq ≤ _
        unfold applyReadToRoom
        split
        · exact hc.numbers.lastUserSeq
        · exact hc.numbers.lastUserSeq
      · replace hx : x ∈ (applyReadToRoom copy.room n).lastReadSeq := hx
        unfold applyReadToRoom at hx
        split at hx
        · next a b ha hb =>
          obtain ⟨y, hy, hay⟩ := hc.numbers.lastReadSeq a ha
          obtain ⟨z, hz, hnz⟩ := hle.lastReadSeq _ htells.1
          obtain rfl := mem_unique hy hz
          refine ⟨y, hy, ?_⟩
          rw [← some.inj hx]
          exact max_le hay hnz
        · exact hc.numbers.lastReadSeq x hx
      · replace hx : x ∈ (applyReadToRoom copy.room n).lastReadUserSeq := hx
        unfold applyReadToRoom at hx
        split at hx
        · next a b ha hb =>
          obtain ⟨y, hy, hay⟩ := hc.numbers.lastReadUserSeq b hb
          obtain ⟨z, hz, hnz⟩ := hle.lastReadUserSeq _ htells.2
          obtain rfl := mem_unique hy hz
          refine ⟨y, hy, ?_⟩
          rw [← some.inj hx]
          exact max_le hay hnz
        · exact hc.numbers.lastReadUserSeq x hx
    | huddle x =>
      rw [hn] at htells
      refine ⟨hc.numbers.of_eq ⟨rfl, rfl, rfl, rfl⟩, fun y hy => ?_⟩
      replace hy : y ∈ newerHuddle copy.huddle x := hy
      rcases newerHuddle_eq_or copy.huddle x with heq | heq
      · rw [heq] at hy
        exact hc.huddle y hy
      · rw [heq, ← htells, ← hafter] at hy
        exact ⟨j + 1, hjk, hy⟩
  · exact hc.of_old hnews

/-! ## Steps -/

theorem serverAt_concat (e : RoomEvent) (hj : j ≤ s.log.length) :
    serverAt { s with log := s.log ++ [e] } j = s.serverAt j := by
  show ((s.log ++ [e]).take j).foldl _ _ = (s.log.take j).foldl _ _
  rw [take_append_of_le_length hj]

theorem From.concat (hc : s.From copy r k) (e : RoomEvent) (hk : k ≤ s.log.length) :
    ({ s with log := s.log ++ [e] } : CopyState).From copy r k := by
  refine ⟨?_, fun x hx => ?_⟩
  · rw [serverAt_concat e hk]
    exact hc.numbers
  · obtain ⟨j, hj, heq⟩ := hc.huddle x hx
    refine ⟨j, hj, ?_⟩
    rw [serverAt_concat e (hj.trans hk)]
    exact heq

include h

/-- The server does something. -/
theorem Sound.happen (he : s.Grows userId e) :
    ({ s with log := s.log ++ [e] } : CopyState).Sound userId := by
  obtain ⟨hnumbers, hhuddles, htells⟩ := he
  have hlast : (s.log ++ [e])[s.log.length]? = some e := getElem?_concat_length
  have hlen : (s.log ++ [e]).length = s.log.length + 1 := length_append
  have hgrows : ∀ j e', (s.log ++ [e])[j]? = some e' →
      (serverAt { s with log := s.log ++ [e] } j e'.roomId).NumbersLe e'.after ∧ e'.Tells userId := by
    intro j e' he'
    have hj := (List.getElem?_eq_some_iff.mp he').1
    rw [hlen] at hj
    rcases (Nat.lt_succ_iff.mp hj).lt_or_eq with hlt | rfl
    · rw [getElem?_append_left hlt] at he'
      rw [serverAt_concat e hlt.le]
      exact h.grows j e' he'
    · rw [hlast] at he'
      cases he'
      rw [serverAt_concat e le_rfl]
      exact ⟨hnumbers, htells⟩
  have hhuddles' : ∀ r j k, j ≤ k → k ≤ (s.log ++ [e]).length →
      (serverAt { s with log := s.log ++ [e] } j r).HuddleLe
        (serverAt { s with log := s.log ++ [e] } k r) := by
    intro r j k hjk hk
    rw [hlen] at hk
    rcases hk.lt_or_eq with hlt | rfl
    · have hk' := Nat.lt_succ_iff.mp hlt
      rw [serverAt_concat e hk', serverAt_concat e (hjk.trans hk')]
      exact h.huddles r j k hjk hk'
    · have hsucc : serverAt { s with log := s.log ++ [e] } (s.log.length + 1) =
          update (s.serverAt s.log.length) e.roomId e.after := by
        rw [serverAt_succ (s := { s with log := s.log ++ [e] }) hlast, serverAt_concat e le_rfl]
      rcases hjk.lt_or_eq with hlt | rfl
      · have hj := Nat.lt_succ_iff.mp hlt
        rw [hsucc, serverAt_concat e hj]
        by_cases hr : r = e.roomId
        · rw [hr, update_self]
          exact hhuddles j hj
        · rw [update_of_ne hr]
          exact h.huddles r j _ hj le_rfl
      · intro x hx y hy _
        rw [mem_unique hx hy]
  refine ⟨hgrows, hhuddles', fun q hq k hk => (h.readLe q hq k hk).trans (hlen ▸ Nat.le_succ _),
    fun r copy hc => ?_⟩
  obtain ⟨hnow, hanswers⟩ := h.rooms r copy hc
  refine ⟨?_, fun q hq hr k hk => (hanswers q hq hr k hk).concat e (h.readLe q hq k hk)⟩
  -- the room is from no later moment than the last one, nor than the next
  have hconcat := hnow.concat e le_rfl
  refine ⟨hconcat.numbers.trans ?_, fun x hx => ?_⟩
  · show (serverAt { s with log := s.log ++ [e] } s.log.length r).NumbersLe
      (serverAt { s with log := s.log ++ [e] } (s.log ++ [e]).length r)
    rw [hlen, serverAt_succ (s := { s with log := s.log ++ [e] }) hlast, serverAt_concat e le_rfl]
    by_cases hr : r = e.roomId
    · rw [hr, update_self]
      exact hnumbers
    · rw [update_of_ne hr]
      exact refl _
  · obtain ⟨j, hj, heq⟩ := hconcat.huddle x hx
    exact ⟨j, hj.trans (hlen ▸ Nat.le_succ _), heq⟩

/-- An event arrives in turn. -/
theorem Sound.deliver (he : s.log[j]? = some e)
    (hturn : ∀ copy ∈ s.rooms e.roomId, copy.News e.notice →
      ∀ q ∈ s.inflight, e.roomId ∈ q.key.roomIds → ∀ k ∈ q.read, j < k) :
    (s.receive userId e).Sound userId := by
  refine ⟨h.grows, h.huddles, h.readLe, fun r copy hc => ?_⟩
  replace hc : update s.rooms e.roomId
      ((s.rooms e.roomId).map fun copy => copy.receive userId e.notice) r = some copy := hc
  by_cases hr : r = e.roomId
  · rw [hr, update_self] at hc
    obtain ⟨before, hbefore, rfl⟩ := map_eq_some_iff.mp hc
    rw [hr]
    obtain ⟨hnow, hanswers⟩ := h.rooms e.roomId before hbefore
    have hj : j < s.log.length := (List.getElem?_eq_some_iff.mp he).1
    refine ⟨(hnow.receive h he hj le_rfl).congr rfl rfl, fun q hq hroom k hk => ?_⟩
    have hbefore' := hanswers q hq hroom k hk
    by_cases hnews : before.News e.notice
    · have hlt := hturn before hbefore hnews q hq hroom k hk
      exact (hbefore'.receive h he hlt (h.readLe q hq k hk)).congr rfl rfl
    · exact (hbefore'.of_old hnews).congr rfl rfl
  · rw [update_of_ne hr] at hc
    obtain ⟨hnow, hanswers⟩ := h.rooms r copy hc
    exact ⟨hnow.congr rfl rfl, fun q hq hroom k hk => (hanswers q hq hroom k hk).congr rfl rfl⟩

/-- A request is sent. -/
theorem Sound.start (key : RoomRequest) (n : ℕ) :
    ({ s with inflight := s.inflight ++ [⟨key, n, none⟩] } : CopyState).Sound userId := by
  have hnew : ∀ q ∈ s.inflight ++ [⟨key, n, none⟩], ∀ k ∈ q.read, q ∈ s.inflight := by
    intro q hq k hk
    refine (mem_append.mp hq).elim id fun hlast => ?_
    rw [mem_singleton.mp hlast] at hk
    exact absurd hk (not_mem_none k)
  refine ⟨h.grows, h.huddles, fun q hq k hk => h.readLe q (hnew q hq k hk) k hk, fun r copy hc => ?_⟩
  obtain ⟨hnow, hanswers⟩ := h.rooms r copy hc
  exact ⟨hnow.congr rfl rfl, fun q hq hr k hk => (hanswers q (hnew q hq k hk) hr k hk).congr rfl rfl⟩

/-- A request is answered with what the server has. -/
theorem Sound.answer (i : ℕ) :
    ({ s with inflight := Request.answer i s.log.length s.inflight } : CopyState).Sound userId := by
  refine ⟨h.grows, h.huddles, fun q hq k hk => ?_, fun r copy hc => ?_⟩
  · obtain ⟨q', hq', -, -, hread⟩ := Request.mem_answer hq
    rcases hread with hsame | ⟨-, hnow⟩
    · exact h.readLe q' hq' k (hsame ▸ hk)
    · rw [hnow] at hk
      exact (some.inj hk).ge
  · obtain ⟨hnow, hanswers⟩ := h.rooms r copy hc
    refine ⟨hnow.congr rfl rfl, fun q hq hr k hk => ?_⟩
    obtain ⟨q', hq', hkey, -, hread⟩ := Request.mem_answer hq
    rcases hread with hsame | ⟨-, hlast⟩
    · exact (hanswers q' hq' (hkey ▸ hr) k (hsame ▸ hk)).congr rfl rfl
    · rw [hlast] at hk
      cases hk
      exact hnow.congr rfl rfl

omit h

/-- What an answer puts, and what it leaves. -/
theorem put_eq_some {key : RoomRequest} {rooms : Ulid → RoomCopy} (hc : s.put key rooms r = some copy) :
    r ∈ key.roomIds ∧ copy.room = (rooms r).room ∧ copy.huddle = (rooms r).huddle ∨
      r ∉ key.roomIds ∧ s.rooms r = some copy := by
  have hcarries : ∀ c : RoomCopy, (key.carries c).room = c.room ∧ (key.carries c).huddle = c.huddle := by
    intro c
    cases key <;> exact ⟨rfl, rfl⟩
  have hfold : ∀ (ids : List Ulid) (copies : Ulid → Option RoomCopy),
      ids.foldl (fun copies roomId => update copies roomId
        (some (.put (copies roomId) (key.carries (rooms roomId))))) copies r = some copy →
      r ∈ ids ∧ copy.room = (rooms r).room ∧ copy.huddle = (rooms r).huddle ∨
        r ∉ ids ∧ copies r = some copy := by
    intro ids
    induction ids with
    | nil => exact fun copies h => .inr ⟨not_mem_nil, h⟩
    | cons x _ ih =>
      intro copies h
      rcases ih _ h with ⟨hmem, heq⟩ | ⟨hnot, heq⟩
      · exact .inl ⟨.tail _ hmem, heq⟩
      · replace heq : update copies x (some (.put (copies x) (key.carries (rooms x)))) r =
          some copy := heq
        by_cases hr : r = x
        · rw [hr, update_self] at heq
          refine .inl ⟨hr ▸ (.head _), ?_⟩
          rw [← some.inj heq, hr]
          exact hcarries (rooms x)
        · rw [update_of_ne hr] at heq
          exact .inr ⟨fun hmem => (mem_cons.mp hmem).elim hr hnot, heq⟩
  exact hfold key.roomIds s.rooms hc

theorem from_of_eq (hroom : copy.room = (s.serverAt k r).room)
    (hhuddle : copy.huddle = (s.serverAt k r).huddle) : s.From copy r k := by
  refine ⟨(refl _).of_eq ?_, fun x hx => ⟨k, le_rfl, hhuddle ▸ hx⟩⟩
  rw [hroom]
  exact ⟨rfl, rfl, rfl, rfl⟩

include h

/-- An answer is applied in turn. -/
theorem Sound.settle {i : ℕ} {q : Request RoomRequest}
    (hq : s.inflight[i]? = some q) (hk : q.read = some k) (hturn : s.InTurn (.settle i)) :
    ({ s with inflight := s.inflight.eraseIdx i, rooms := s.put q.key (s.serverAt k) } :
      CopyState).Sound userId := by
  have hmem : q ∈ s.inflight := mem_of_getElem? hq
  have hle : k ≤ s.log.length := h.readLe q hmem k hk
  refine ⟨h.grows, h.huddles, fun q' hq' => h.readLe q' (mem_of_mem_eraseIdx hq'),
    fun r copy hc => ?_⟩
  rcases put_eq_some hc with ⟨hr, hroom, hhuddle⟩ | ⟨-, hold⟩
  · have hfrom : s.From copy r k := from_of_eq hroom hhuddle
    refine ⟨(hfrom.later h hle le_rfl).congr rfl rfl, fun q' hq' hr' k' hk' => ?_⟩
    have hle' := h.readLe q' (mem_of_mem_eraseIdx hq') k' hk'
    rcases hturn q hq k hk q' hq' r hr hr' k' hk' with hkk' | hsame
    · exact (hfrom.later h hkk' hle').congr rfl rfl
    · have hfrom' : s.From copy r k' :=
        from_of_eq (hroom.trans (by rw [hsame])) (hhuddle.trans (by rw [hsame]))
      exact hfrom'.congr rfl rfl
  · obtain ⟨hnow, hanswers⟩ := h.rooms r copy hold
    refine ⟨hnow.congr rfl rfl, fun q' hq' hr' k' hk' => ?_⟩
    exact (hanswers q' (mem_of_mem_eraseIdx hq') hr' k' hk').congr rfl rfl

/-- **One step keeps it.** -/
theorem Sound.act (hturn : s.InTurn a) (hact : act userId s a = some s') : s'.Sound userId := by
  cases a with
  | happen =>
    obtain ⟨hgrows, heq⟩ := ite_none_right_eq_some.mp hact
    exact some.inj heq ▸ h.happen hgrows
  | deliver =>
    obtain ⟨e, he, rfl⟩ := map_eq_some_iff.mp hact
    exact h.deliver he (hturn e he)
  | start key =>
    replace hact : (if key.alone && s.inflight.any (fun q => q.key.sameKey key) then some s
      else some { s with inflight := s.inflight ++ [⟨key, s.log.length, none⟩] }) = some s' := hact
    split at hact
    · exact some.inj hact ▸ h
    · exact some.inj hact ▸ h.start key _
  | answer i => exact some.inj hact ▸ h.answer i
  | settle =>
    obtain ⟨q, hq, hrest⟩ := bind_eq_some_iff.mp hact
    obtain ⟨k, hk, rfl⟩ := map_eq_some_iff.mp hrest
    exact h.settle hq hk hturn

omit h

/-- **An answer takes nothing back**: no number of a room gets smaller, and no huddle is replaced by an
older version of it. -/
theorem responses_never_undo {i : ℕ} {old new : RoomCopy}
    (hs : (system userId).ReachableBy (fun s a => s.InTurn a) s)
    (hact : act userId s (.settle i) = some s') (hold : s.rooms r = some old)
    (hnew : s'.rooms r = some new) : old.NumbersLe new ∧ old.HuddleLe new := by
  have h : s.Sound userId := hs.invariant (I := Sound userId) (fun _ => sound_of_init)
    fun _ _ _ h hturn hact => h.act hturn hact
  obtain ⟨q, hq, hrest⟩ := bind_eq_some_iff.mp hact
  obtain ⟨k, hk, rfl⟩ := map_eq_some_iff.mp hrest
  have hmem : q ∈ s.inflight := mem_of_getElem? hq
  rcases put_eq_some hnew with ⟨hr, hroom, hhuddle⟩ | ⟨-, hsame⟩
  · have hfrom := (h.rooms r old hold).2 q hmem hr k hk
    refine ⟨hfrom.numbers.trans ?_, fun x hx y hy => ?_⟩
    · exact ⟨hroom ▸ le_rfl, hroom ▸ le_rfl, hroom ▸ fun x hx => ⟨x, hx, le_rfl⟩,
        hroom ▸ fun x hx => ⟨x, hx, le_rfl⟩⟩
    · obtain ⟨j, hj, heq⟩ := hfrom.huddle x hx
      exact h.huddles r j k hj (h.readLe q hmem k hk) x heq y (hhuddle ▸ hy)
  · obtain rfl := Option.some.inj (hold.symm.trans hsame)
    refine ⟨refl _, fun x hx y hy _ => ?_⟩
    rw [mem_unique hx hy]

/-! ## A message in between -/

/-- A room in which nothing was said. -/
def quietRoom : RoomCopy := ⟨⟨0, 0, none, none, some 0, some 0, 0, 0⟩, none, some 2⟩

/-- A client that has nothing. -/
def start : CopyState where
  base := fun _ => quietRoom
  log := []
  inflight := []
  rooms := fun _ => none

/-- Somebody says something in room 5. -/
def saidIt : RoomEvent where
  roomId := 5
  notice := .created (Message.said 2 1 1)
  after := { quietRoom with room := applyMessageToRoom quietRoom.room (Message.said 2 1 1) 1 true }

/-- The room is loaded, and asked for again. -/
def loaded : List CopyAction := [.start (.openRoom 5), .answer 0, .settle 0, .start (.refreshRoom 5)]

theorem start_init : (system 1).init start := ⟨rfl, rfl, rfl⟩

/-- An answer that was read after the message. -/
theorem responses_never_undo_refreshed : ∃ s, (system 1).ReachableBy (fun s a => s.InTurn a) s ∧
    ∃ s' old new, act 1 s (.settle 0) = some s' ∧ s.rooms 5 = some old ∧ s'.rooms 5 = some new ∧
      old.room.lastMessageSeq = 1 ∧ old.NumbersLe new ∧ old.HuddleLe new := by
  have hrun : ((system 1).runBy (fun s a => s.InTurn a) start
      (loaded ++ [.happen saidIt, .deliver 0, .answer 0])).any (fun s => (act 1 s (.settle 0)).any
        fun s' => (s.rooms 5).any fun old => (s'.rooms 5).isSome &&
          decide (old.room.lastMessageSeq = 1)) = true := by decide +kernel
  obtain ⟨s, hreach, htest⟩ := TransitionSystem.exists_of_runBy hrun start_init
  obtain ⟨s', hact, htest⟩ := (Option.any_eq_true _ _).mp htest
  obtain ⟨old, hold, htest⟩ := (Option.any_eq_true _ _).mp htest
  obtain ⟨hsome, hseq⟩ := Bool.and_eq_true_iff.mp htest
  obtain ⟨new, hnew⟩ := isSome_iff_exists.mp hsome
  exact ⟨s, hreach, s', old, new, hact, hold, hnew, of_decide_eq_true hseq,
    responses_never_undo hreach hact hold hnew⟩

/-- **An answer undoes a message** that came after it was read. -/
theorem response_undoes_message : ∃ s s', (system 1).Reachable s ∧ act 1 s (.settle 0) = some s' ∧
    ∃ old new, s.rooms 5 = some old ∧ s'.rooms 5 = some new ∧
      new.room.lastMessageSeq < old.room.lastMessageSeq := by
  have hrun : ((system 1).run start (loaded ++ [.answer 0, .happen saidIt, .deliver 0])).any (fun s =>
      (act 1 s (.settle 0)).any fun s' => (s.rooms 5).any fun old => (s'.rooms 5).any fun new =>
        decide (new.room.lastMessageSeq < old.room.lastMessageSeq)) = true := by decide +kernel
  obtain ⟨s, hreach, htest⟩ := TransitionSystem.exists_of_run hrun start_init
  obtain ⟨s', hact, htest⟩ := (Option.any_eq_true _ _).mp htest
  obtain ⟨old, hold, htest⟩ := (Option.any_eq_true _ _).mp htest
  obtain ⟨new, hnew, htest⟩ := (Option.any_eq_true _ _).mp htest
  exact ⟨s, s', hreach, hact, old, new, hold, hnew, of_decide_eq_true htest⟩

end CopyState

end Hibari
