import Hibari.FollowedThreads

/-!
# Followed threads in any order

A notice writes one row of the list (`perm_applyThreadNotice`), so what becomes of a thread can be seen
on its row alone. The numbers of a row are maxima of what arrived, in any order. The rest of it is not:
a version of the root is taken if it knows of as many replies as the row, even if it is older than what
the row shows; and a mention is counted when a reply arrives that is later than all that was seen,
whether or not it was read. `followed_threads_converge` has what is needed of the order.
-/

namespace Hibari

open List

open ThreadNotice

/-! ## Times -/

namespace Timestamp

/-- The milliseconds of a time are what it is, down to a millisecond. -/
theorem parse_le_seconds (t : Timestamp) :
    (t.parse : ℚ) ≤ t.seconds * 1000 ∧ t.seconds * 1000 < t.parse + 1 := by
  rw [parse, seconds]
  rcases t.fraction with - | ⟨a, - | ⟨b, - | ⟨c, ds⟩⟩⟩
  · simp [fractionValue]
  · simp only [fractionValue, getElem?_cons_zero, getElem?_cons_succ,
      getElem?_nil, Option.elim_none, Option.elim_some, Nat.cast_add, Nat.cast_mul,
      Nat.cast_ofNat, Nat.cast_zero]
    constructor <;> linarith
  · simp only [fractionValue, getElem?_cons_zero, getElem?_cons_succ,
      getElem?_nil, Option.elim_none, Option.elim_some, Nat.cast_add, Nat.cast_mul,
      Nat.cast_ofNat, Nat.cast_zero]
    constructor <;> linarith
  · have hnonneg := fractionValue_nonneg ds
    have hlt := fractionValue_lt_one ds
    simp only [fractionValue, getElem?_cons_zero, getElem?_cons_succ,
      Option.elim_some, Nat.cast_add, Nat.cast_mul, Nat.cast_ofNat]
    constructor <;> linarith

theorem seconds_lt_of_parse_lt {s t : Timestamp} (h : s.parse < t.parse) :
    s.seconds < t.seconds := by
  have hle : (s.parse : ℚ) + 1 ≤ t.parse := by exact_mod_cast h
  have hs := (parse_le_seconds s).2
  have ht := (parse_le_seconds t).1
  linarith

end Timestamp

variable {a b : FollowedThread}

/-! ## The order of the list -/

theorem byLastReply_le_zero : byLastReply a b ≤ 0 ↔ b.lastReplyAt.parse < a.lastReplyAt.parse ∨
      b.lastReplyAt.parse = a.lastReplyAt.parse ∧ b.root.id ≤ a.root.id := by
  unfold byLastReply
  dsimp only
  split
  · next hne => omega
  · next heq =>
    have hsame : b.lastReplyAt.parse = a.lastReplyAt.parse := by omega
    split
    · next hlt => exact ⟨fun _ => .inr ⟨hsame, hlt.le⟩, fun _ => by decide⟩
    · next hnot =>
      split
      · next hlt =>
        refine ⟨fun h => absurd h (by decide), fun h => ?_⟩
        rcases h with h | ⟨-, h⟩
        · exact absurd h (by rw [hsame]; exact lt_irrefl _)
        · exact absurd h (not_le.mpr hlt)
      · next hnot' => exact ⟨fun _ => .inr ⟨hsame, not_lt.mp hnot'⟩, fun _ => le_rfl⟩

/-- The order that the list is in. -/
abbrev FollowedThread.Before (a b : FollowedThread) : Prop := byLastReply a b ≤ 0

/-- The order that the server gives. -/
def FollowedThread.ServerBefore (a b : FollowedThread) : Prop :=
  b.lastReplyAt.seconds < a.lastReplyAt.seconds ∨
    b.lastReplyAt.seconds = a.lastReplyAt.seconds ∧ b.root.id ≤ a.root.id

instance : Std.Total FollowedThread.Before where
  total a b := by
    rw [FollowedThread.Before, FollowedThread.Before, byLastReply_le_zero, byLastReply_le_zero]
    rcases lt_trichotomy a.lastReplyAt.parse b.lastReplyAt.parse with h | h | h
    · exact Or.inr (Or.inl h)
    · rcases le_total a.root.id b.root.id with h' | h'
      · exact Or.inr (Or.inr ⟨h, h'⟩)
      · exact Or.inl (Or.inr ⟨h.symm, h'⟩)
    · exact Or.inl (Or.inl h)

instance : IsTrans FollowedThread FollowedThread.Before where
  trans a b c := by
    rw [FollowedThread.Before, FollowedThread.Before, FollowedThread.Before, byLastReply_le_zero,
      byLastReply_le_zero, byLastReply_le_zero]
    rintro (h | ⟨h, hid⟩) (h' | ⟨h', hid'⟩)
    · exact Or.inl (h'.trans h)
    · exact Or.inl (h'.trans_lt h)
    · exact Or.inl (h'.trans_eq h)
    · exact Or.inr ⟨h'.trans h, hid'.trans hid⟩

/-- **The order of the list is that of the server**, for rows that are not of one millisecond. -/
theorem FollowedThread.Before.serverBefore (h : a.Before b)
    (hapart : a.lastReplyAt.parse = b.lastReplyAt.parse → a.lastReplyAt = b.lastReplyAt) :
    a.ServerBefore b := by
  rcases byLastReply_le_zero.mp h with h | ⟨h, hid⟩
  · exact .inl (Timestamp.seconds_lt_of_parse_lt h)
  · exact .inr ⟨by rw [hapart h.symm], hid⟩

/-! ## One row is written -/

section Rows

variable {threads : List FollowedThread} {t : FollowedThread} {rootId userId : Ulid}
  {f : FollowedThread → Option FollowedThread}

/-- The row of one thread is replaced. -/
def replaceThread (threads : List FollowedThread) (rootId : Ulid) (next : FollowedThread) :
    List FollowedThread := threads.map fun x => if x.root.id = rootId then next else x

variable (hn : (threads.map fun x => x.root.id).Nodup)
include hn

theorem updateThread_eq (ht : t ∈ threads) (hid : t.root.id = rootId) :
    updateThread threads rootId f = (f t).map (replaceThread threads rootId) := by
  obtain ⟨i, hi⟩ := getElem?_of_mem ht
  obtain ⟨hlt, hget⟩ := List.getElem?_eq_some_iff.mp hi
  have hsame : ∀ j (hj : j < threads.length), threads[j].root.id = rootId → j = i := by
    intro j hj hroot
    have hkeys : (threads.map fun x => x.root.id)[j]? = (threads.map fun x => x.root.id)[i]? := by
      rw [getElem?_map, getElem?_map, hi, getElem?_eq_getElem hj, Option.map_some,
        Option.map_some, hroot, hid]
    exact (getElem?_inj (by simpa using hj) hn).mp hkeys
  have hfind : threads.findIdx? (fun x => x.root.id = rootId) = some i := by
    refine findIdx?_eq_some_iff_getElem.mpr ⟨hlt, ?_, fun j hj => ?_⟩
    · rw [hget]
      exact decide_eq_true hid
    · intro hroot
      exact absurd (hsame j (hj.trans hlt) (of_decide_eq_true hroot)) hj.ne
  rw [updateThread, hfind, Option.bind_some, hi, Option.bind_some]
  refine congrArg (Option.map · (f t)) (funext fun next => ext_getElem? fun j => ?_)
  rw [replaceThread, getElem?_set, getElem?_map]
  by_cases hj : i = j
  · subst hj
    rw [if_pos rfl, if_pos hlt, hi, Option.map_some, if_pos hid]
  · rw [if_neg hj]
    cases hx : threads[j]? with
    | none => rfl
    | some =>
      obtain ⟨hjlt, rfl⟩ := List.getElem?_eq_some_iff.mp hx
      rw [Option.map_some, if_neg fun hroot => hj (hsame j hjlt hroot).symm]

theorem perm_updateThread (ht : t ∈ threads) (hid : t.root.id = rootId) :
    (updateThread threads rootId f).getD threads = replaceThread threads rootId ((f t).getD t) := by
  rw [updateThread_eq hn ht hid]
  cases f t with
  | some => rfl
  | none =>
    rw [Option.map_none, Option.getD_none, Option.getD_none, replaceThread]
    refine ((map_congr_left fun x hx => ?_).trans (map_id _)).symm
    split
    · next hx' => exact inj_on_of_nodup_map hn ht hx (hid.trans hx'.symm)
    · rfl

omit hn

/-- What a notice does to the row of its thread. -/
def rowNotice (userId : Ulid) (t : FollowedThread) : ThreadNotice → FollowedThread
  | .created reply =>
    let replied := (t.withReply reply userId).getD t
    if reply.sender.id = userId then
      reply.threadSeq.elim replied fun threadSeq => (replied.withRead threadSeq).getD replied
    else replied
  | .updated root => root.thread.elim t fun thread => (t.withRoot root thread).getD t
  | .read _ lastReadThreadSeq => (t.withRead lastReadThreadSeq).getD t

end Rows

/-! ## What becomes of a row -/

namespace FollowedThread

variable {t : FollowedThread} {reply root : ThreadMessage} {thread : ThreadSummary} {userId : Ulid}
  {k : ℕ} {v : ThreadMessage}

/-- What is unread is what was not read. -/
def Counted (t : FollowedThread) : Prop := t.unreadCount = t.lastThreadSeq - t.lastReadThreadSeq

/-- Two rows that show the same of their root. -/
def SameRoot (t t' : FollowedThread) : Prop :=
  t.root = t'.root ∧ t.replyCount = t'.replyCount ∧ t.lastReplyAt = t'.lastReplyAt

theorem withReply_getD (userId : Ulid) (hk : reply.threadSeq = some k) (ht : t.Counted) :
    ((t.withReply reply userId).getD t).lastThreadSeq = max t.lastThreadSeq k ∧
    ((t.withReply reply userId).getD t).lastReadThreadSeq = t.lastReadThreadSeq ∧
    ((t.withReply reply userId).getD t).Counted ∧
    ((t.withReply reply userId).getD t).SameRoot t ∧
    ((t.withReply reply userId).getD t).mentionCount = t.mentionCount +
      if t.lastThreadSeq < k ∧ mentions userId (.created reply) = true then 1 else 0 := by
  rw [withReply, hk, Option.bind_some]
  by_cases hle : k ≤ t.lastThreadSeq
  · rw [if_pos hle, if_neg fun h => absurd h.1 (not_lt.mpr hle)]
    exact ⟨(max_eq_left hle).symm, rfl, ht, ⟨rfl, rfl, rfl⟩, rfl⟩
  · rw [if_neg hle]
    have hlt : t.lastThreadSeq < k := not_le.mp hle
    refine ⟨(max_eq_right hlt.le).symm, rfl, rfl, ⟨rfl, rfl, rfl⟩, ?_⟩
    show (if mentions userId (.created reply) = true then _ else _) = _
    by_cases hmention : mentions userId (.created reply) = true
    · rw [if_pos hmention, if_pos ⟨hlt, hmention⟩]
    · rw [if_neg hmention, if_neg fun h => hmention h.2]
      rfl

theorem withRead_eq (h : t.lastReadThreadSeq < k) : t.withRead k = some { t with
    lastReadThreadSeq := k
    unreadCount := t.lastThreadSeq - k
    mentionCount := if t.lastThreadSeq ≤ k then 0 else t.mentionCount } := by
  rw [withRead, if_neg (not_le.mpr h)]
  dsimp only [withUnread]
  split_ifs with hall hle hle
  · rfl
  · exact absurd (Nat.sub_eq_zero_iff_le.mp hall.1) hle
  · have hzero : t.mentionCount = 0 := Nat.eq_zero_of_not_pos fun hpos =>
      hall ⟨Nat.sub_eq_zero_iff_le.mpr hle, hpos⟩
    rw [hzero]
  · rfl

theorem withRead_getD (k : ℕ) (ht : t.Counted) :
    ((t.withRead k).getD t).lastThreadSeq = t.lastThreadSeq ∧
    ((t.withRead k).getD t).lastReadThreadSeq = max t.lastReadThreadSeq k ∧
    ((t.withRead k).getD t).Counted ∧ ((t.withRead k).getD t).SameRoot t ∧
    ((t.withRead k).getD t).mentionCount =
      if t.lastReadThreadSeq < k ∧ t.lastThreadSeq ≤ k then 0 else t.mentionCount := by
  by_cases hle : k ≤ t.lastReadThreadSeq
  · rw [withRead, if_pos hle, if_neg fun h => absurd h.1 (not_lt.mpr hle)]
    exact ⟨rfl, (max_eq_left hle).symm, ht, ⟨rfl, rfl, rfl⟩, rfl⟩
  · have hlt : t.lastReadThreadSeq < k := not_le.mp hle
    rw [withRead_eq hlt]
    refine ⟨rfl, (max_eq_right hlt.le).symm, rfl, ⟨rfl, rfl, rfl⟩, ?_⟩
    show (if t.lastThreadSeq ≤ k then 0 else t.mentionCount) = _
    by_cases hall : t.lastThreadSeq ≤ k
    · rw [if_pos hall, if_pos ⟨hlt, hall⟩]
    · rw [if_neg hall, if_neg fun h => hall h.2]

theorem withRoot_getD (ht : t.Counted) (hthread : root.thread = some thread) :
    ((t.withRoot root thread).getD t).lastThreadSeq = max t.lastThreadSeq thread.lastThreadSeq ∧
    ((t.withRoot root thread).getD t).lastReadThreadSeq = t.lastReadThreadSeq ∧
    ((t.withRoot root thread).getD t).Counted ∧
    ((t.withRoot root thread).getD t).mentionCount = t.mentionCount ∧
    ((t.withRoot root thread).getD t).root.id = t.root.id ∧
    (thread.lastThreadSeq < t.lastThreadSeq → (t.withRoot root thread).getD t = t) ∧
    (t.lastThreadSeq ≤ thread.lastThreadSeq → ((t.withRoot root thread).getD t).Shows root) := by
  rw [withRoot]
  by_cases hlt : thread.lastThreadSeq < t.lastThreadSeq
  · rw [if_pos hlt]
    exact ⟨(max_eq_left hlt.le).symm, rfl, ht, rfl, rfl, fun _ => rfl,
      fun hle => absurd hle (not_le.mpr hlt)⟩
  · rw [if_neg hlt]
    refine ⟨(max_eq_right (not_lt.mp hlt)).symm, rfl, rfl, rfl, rfl, fun h => absurd h hlt,
      fun _ => ⟨rfl, rfl, ?_, ?_⟩⟩
    · rw [hthread]
      rfl
    · rw [hthread]
      rfl

theorem SameRoot.shows {t' : FollowedThread} (h : t'.SameRoot t) (hv : t.Shows v) : t'.Shows v where
  body := (congrArg FollowedRoot.body h.1).trans hv.body
  deleted := (congrArg FollowedRoot.deleted h.1).trans hv.deleted
  replyCount := hv.replyCount.trans (congrArg some h.2.1.symm)
  lastReplyAt := hv.lastReplyAt.trans (congrArg some h.2.2.symm)

end FollowedThread

open FollowedThread

/-- A notice that says something: a reply has a place, a version of the root knows of replies. -/
def ThreadNotice.Says : ThreadNotice → Prop
  | .created reply => ∃ k, reply.threadSeq = some k ∧ 0 < k
  | .updated root => root.thread.isSome
  | .read _ _ => True

section Row

variable {t : FollowedThread} {userId : Ulid} {S : Finset ThreadNotice} {e : ThreadNotice}

theorem lastSeq_insert : lastSeq (insert e S) = max (lastSeq S) e.seq := by
  rw [lastSeq, Finset.sup_insert, lastSeq, sup_comm]

theorem lastRead_insert :
    lastRead userId (insert e S) = max (lastRead userId S) (e.readSeq userId) := by
  rw [lastRead, Finset.sup_insert, lastRead, sup_comm]

/-- **The numbers of a row are maxima**, in whatever order. -/
theorem numbers_rowNotice (userId : Ulid) (he : e.Says) (ht : t.Counted) :
    (rowNotice userId t e).lastThreadSeq = max t.lastThreadSeq e.seq ∧
    (rowNotice userId t e).lastReadThreadSeq = max t.lastReadThreadSeq (e.readSeq userId) ∧
    (rowNotice userId t e).Counted := by
  cases e with
  | created reply =>
    obtain ⟨k, hk, -⟩ := he
    obtain ⟨hlast, hread, hcounted, -, -⟩ := withReply_getD userId hk ht
    have hseq : seq (.created reply) = k := by rw [seq, hk, Option.getD_some]
    simp only [rowNotice, hk, Option.elim_some, readSeq, Option.getD_some]
    rw [hseq]
    split
    · obtain ⟨hlast', hread', hcounted', -, -⟩ := withRead_getD k hcounted
      exact ⟨hlast'.trans hlast, hread'.trans (by rw [hread]), hcounted'⟩
    · exact ⟨hlast, hread.trans (Nat.max_zero _).symm, hcounted⟩
  | updated =>
    obtain ⟨thread, hthread⟩ := Option.isSome_iff_exists.mp he
    obtain ⟨hlast, hread, hcounted, -⟩ := withRoot_getD ht hthread
    simp only [rowNotice, seq, hthread, Option.elim_some, readSeq]
    exact ⟨hlast, hread.trans (Nat.max_zero _).symm, hcounted⟩
  | read _ k =>
    obtain ⟨hlast, hread, hcounted, -⟩ := withRead_getD k ht
    exact ⟨hlast.trans (Nat.max_zero _).symm, hread, hcounted⟩

theorem counts_rowNotice (he : e.Says) (h : t.Counts userId S) :
    (rowNotice userId t e).Counts userId (insert e S) := by
  obtain ⟨hlast, hread, hcounted⟩ := numbers_rowNotice userId he h.unreadCount
  refine ⟨?_, ?_, hcounted⟩
  · rw [hlast, lastSeq_insert, h.lastThreadSeq]
  · rw [hread, lastRead_insert, h.lastReadThreadSeq]

/-- **A notice comes in turn** after some others: a reply that mentions the user comes before any
later reply, any version of the root that knows of it, and any read position that covers it; and a read
position that covers a mention covers all that came. -/
def InTurn (userId : Ulid) (S : Finset ThreadNotice) (e : ThreadNotice) : Prop :=
  e ∉ S → (e.mentions userId = true → ∀ x ∈ S, x.seq < e.seq ∧ x.readSeq userId < e.seq) ∧
    (lastRead userId S < e.readSeq userId → lastSeq S ≤ e.readSeq userId ∨
      ∀ x ∈ S, x.mentions userId = true → x.seq ≤ lastRead userId S ∨ e.readSeq userId < x.seq)

/-- What was read grows, and nothing else was to be counted. -/
theorem unreadMentions_insert_of_not (he : e.mentions userId = false) :
    unreadMentions userId (insert e S) =
      (unreadMentions userId S).filter fun x => e.readSeq userId < x.seq := by
  ext x
  rw [unreadMentions, Finset.mem_filter, unreadMentions, Finset.mem_filter, Finset.mem_filter,
    Finset.mem_insert, lastRead_insert, max_lt_iff]
  constructor
  · rintro ⟨rfl | hx, hmention, hlast, hread⟩
    · exact absurd hmention (by rw [he]; simp)
    · exact ⟨⟨hx, hmention, hlast⟩, hread⟩
  · rintro ⟨⟨hx, hmention, hlast⟩, hread⟩
    exact ⟨.inr hx, hmention, hlast, hread⟩

/-- **What is read in turn**: all, or no mention. -/
theorem card_unreadMentions_read (he : e.mentions userId = false) (hturn : InTurn userId S e)
    (hnew : e ∉ S) : (unreadMentions userId (insert e S)).card =
      if lastRead userId S < e.readSeq userId ∧ lastSeq S ≤ e.readSeq userId then 0
      else (unreadMentions userId S).card := by
  rw [unreadMentions_insert_of_not he]
  split
  · next hall =>
    refine Finset.card_eq_zero.mpr (Finset.filter_eq_empty_iff.mpr fun x hx => not_lt.mpr ?_)
    exact (Finset.le_sup (Finset.mem_filter.mp hx).1).trans hall.2
  · next hnot =>
    refine congrArg Finset.card (Finset.filter_true_of_mem fun x hx => ?_)
    obtain ⟨hmem, hmention, hlast⟩ := Finset.mem_filter.mp hx
    by_cases hread : lastRead userId S < e.readSeq userId
    · rcases (hturn hnew).2 hread with hall | hnone
      · exact absurd ⟨hread, hall⟩ hnot
      · exact (hnone x hmem hmention).resolve_left (not_le.mpr hlast)
    · exact (not_lt.mp hread).trans_lt hlast

/-- What came before counts no mention again. -/
theorem mentionCount_rowNotice_of_old (he : e.Says) (ht : t.Counted)
    (hseq : e.seq ≤ t.lastThreadSeq) (hread : e.readSeq userId ≤ t.lastReadThreadSeq) :
    (rowNotice userId t e).mentionCount = t.mentionCount := by
  cases e with
  | created =>
    obtain ⟨k, hk, -⟩ := he
    obtain ⟨hlast, hlastRead, hcounted, -, hcount⟩ := withReply_getD userId hk ht
    have hle : k ≤ t.lastThreadSeq := by
      rw [seq, hk, Option.getD_some] at hseq
      exact hseq
    rw [if_neg fun h => absurd h.1 (not_lt.mpr hle), Nat.add_zero] at hcount
    simp only [rowNotice, hk, Option.elim_some]
    split
    · next hmine =>
      obtain ⟨-, -, -, -, hcount'⟩ := withRead_getD k hcounted
      rw [readSeq, if_pos hmine, hk, Option.getD_some] at hread
      rw [hcount', if_neg fun h => absurd h.1 (not_lt.mpr (hlastRead ▸ hread)), hcount]
    · exact hcount
  | updated =>
    obtain ⟨thread, hthread⟩ := Option.isSome_iff_exists.mp he
    obtain ⟨-, -, -, hcount, -⟩ := withRoot_getD ht hthread
    simp only [rowNotice, hthread, Option.elim_some]
    exact hcount
  | read _ k =>
    obtain ⟨-, -, -, -, hcount⟩ := withRead_getD k ht
    exact hcount.trans (if_neg fun h => absurd h.1 (not_lt.mpr hread))

/-- **Mentions are counted in turn.** -/
theorem mentions_rowNotice (he : e.Says) (h : t.Counts userId S)
    (hmention : t.mentionCount = (unreadMentions userId S).card) (hturn : InTurn userId S e) :
    (rowNotice userId t e).mentionCount = (unreadMentions userId (insert e S)).card := by
  by_cases hnew : e ∈ S
  · -- it came before: it is not later than what was seen, and what it reads was read
    rw [Finset.insert_eq_of_mem hnew, ← hmention]
    have hseq : e.seq ≤ t.lastThreadSeq := h.lastThreadSeq.symm ▸ Finset.le_sup hnew
    have hread : e.readSeq userId ≤ t.lastReadThreadSeq :=
      h.lastReadThreadSeq.symm ▸ Finset.le_sup (f := readSeq userId) hnew
    exact mentionCount_rowNotice_of_old he h.unreadCount hseq hread
  · cases e with
    | created reply =>
      obtain ⟨k, hk, hpos⟩ := he
      obtain ⟨hlast, hread, hcounted, -, hcount⟩ := withReply_getD userId hk h.unreadCount
      have hseq : seq (.created reply) = k := by rw [seq, hk, Option.getD_some]
      simp only [rowNotice, hk, Option.elim_some]
      by_cases hmine : reply.sender.id = userId
      · -- an own reply mentions nobody, and is read
        have hnone : mentions userId (.created reply) = false := by
          rw [mentions, decide_eq_false (not_not_intro hmine), Bool.false_and]
        have hreads : readSeq userId (.created reply) = k := by
          rw [readSeq, if_pos hmine, hk, Option.getD_some]
        obtain ⟨-, -, -, -, hcount'⟩ := withRead_getD k hcounted
        rw [if_neg fun h => Bool.false_ne_true (hnone.symm.trans h.2), Nat.add_zero] at hcount
        rw [if_pos hmine, hcount', card_unreadMentions_read hnone hturn hnew, hlast, hread, hcount,
          hreads, ← h.lastThreadSeq, ← h.lastReadThreadSeq, ← hmention]
        refine if_congr (and_congr_right fun _ => ?_) rfl rfl
        rw [max_le_iff]
        exact and_iff_left le_rfl
      · rw [if_neg hmine, hcount]
        by_cases hmentions : mentions userId (.created reply) = true
        · -- it is later than all that was seen and read, so it counts
          have hafter := (hturn hnew).1 hmentions
          rw [hseq] at hafter
          have hlt : t.lastThreadSeq < k := by
            rw [h.lastThreadSeq]
            exact (Finset.sup_lt_iff hpos).mpr fun x hx => (hafter x hx).1
          have hunread : lastRead userId S < k :=
            (Finset.sup_lt_iff hpos).mpr fun x hx => (hafter x hx).2
          have hreads : readSeq userId (.created reply) = 0 := by rw [readSeq, if_neg hmine]
          have hinsert : unreadMentions userId (insert (.created reply) S) =
              insert (.created reply) (unreadMentions userId S) := by
            rw [unreadMentions, lastRead_insert, hreads, Nat.max_zero, Finset.filter_insert,
              if_pos ⟨hmentions, hseq.symm ▸ hunread⟩]
            rfl
          have hfresh : .created reply ∉ unreadMentions userId S :=
            fun h => hnew (Finset.mem_filter.mp h).1
          rw [hinsert, Finset.card_insert_of_notMem hfresh, if_pos ⟨hlt, hmentions⟩, hmention]
        · rw [if_neg fun h => hmentions h.2, Nat.add_zero, hmention]
          have hreads : readSeq userId (.created reply) = 0 := by rw [readSeq, if_neg hmine]
          rw [card_unreadMentions_read (Bool.eq_false_iff.mpr hmentions) hturn hnew, hreads,
            if_neg fun h => Nat.not_lt_zero _ h.1]
    | updated =>
      obtain ⟨thread, hthread⟩ := Option.isSome_iff_exists.mp he
      obtain ⟨-, -, -, hcount, -⟩ := withRoot_getD h.unreadCount hthread
      rw [card_unreadMentions_read rfl hturn hnew, if_neg fun h => Nat.not_lt_zero _ h.1, ← hmention]
      simp only [rowNotice, hthread, Option.elim_some]
      exact hcount
    | read _ k =>
      obtain ⟨-, -, -, -, hcount⟩ := withRead_getD k h.unreadCount
      rw [card_unreadMentions_read rfl hturn hnew, ← hmention, ← h.lastThreadSeq,
        ← h.lastReadThreadSeq]
      exact hcount

theorem id_rowNotice (he : e.Says) (ht : t.Counted) :
    (rowNotice userId t e).root.id = t.root.id := by
  cases e with
  | created =>
    obtain ⟨k, hk, -⟩ := he
    obtain ⟨-, -, hcounted, hroot, -⟩ := withReply_getD userId hk ht
    simp only [rowNotice, hk, Option.elim_some]
    split
    · obtain ⟨-, -, -, hroot', -⟩ := withRead_getD k hcounted
      exact congrArg FollowedRoot.id (hroot'.1.trans hroot.1)
    · exact congrArg FollowedRoot.id hroot.1
  | updated =>
    obtain ⟨thread, hthread⟩ := Option.isSome_iff_exists.mp he
    obtain ⟨-, -, -, -, hid, -⟩ := withRoot_getD ht hthread
    simp only [rowNotice, hthread, Option.elim_some]
    exact hid
  | read id k =>
    obtain ⟨-, -, -, hroot, -⟩ := withRead_getD k ht
    exact congrArg FollowedRoot.id hroot.1

/-- Only a version of the root changes what a row shows of it. -/
theorem sameRoot_rowNotice (userId : Ulid) (he : e.Says) (ht : t.Counted) (hnot : ∀ u, e ≠ .updated u) :
    (rowNotice userId t e).SameRoot t := by
  cases e with
  | created =>
    obtain ⟨k, hk, -⟩ := he
    obtain ⟨-, -, hcounted, hroot, -⟩ := withReply_getD userId hk ht
    simp only [rowNotice, hk, Option.elim_some]
    split
    · obtain ⟨-, -, -, hroot', -⟩ := withRead_getD k hcounted
      exact ⟨hroot'.1.trans hroot.1, hroot'.2.1.trans hroot.2.1, hroot'.2.2.trans hroot.2.2⟩
    · exact hroot
  | updated root => exact absurd rfl (hnot root)
  | read _ k =>
    obtain ⟨-, -, -, hroot, -⟩ := withRead_getD k ht
    exact hroot

end Row

/-! ## All that arrives -/

section All

variable {t : FollowedThread} {userId : Ulid} {S : Finset ThreadNotice} {D : List ThreadNotice}
  (hD : ∀ e ∈ D, e.Says)
include hD

theorem counts_foldl (h : t.Counts userId S) :
    (D.foldl (rowNotice userId) t).Counts userId (S ∪ D.toFinset) := by
  induction D using List.reverseRecOn with
  | nil =>
    rw [toFinset_nil, Finset.union_empty]
    exact h
  | append_singleton D e ih =>
    have hset : S ∪ (D ++ [e]).toFinset = insert e (S ∪ D.toFinset) := by
      ext x
      simp only [Finset.mem_union, mem_toFinset, mem_append, mem_singleton, Finset.mem_insert]
      tauto
    rw [foldl_append, hset]
    exact counts_rowNotice (hD e (mem_append_right _ (mem_singleton_self e)))
      (ih fun x hx => hD x (mem_append_left _ hx))

theorem mentions_foldl (h : t.Counts userId S)
    (hmention : t.mentionCount = (unreadMentions userId S).card)
    (hturn : ∀ p e q, D = p ++ e :: q → InTurn userId (S ∪ p.toFinset) e) :
    (D.foldl (rowNotice userId) t).mentionCount = (unreadMentions userId (S ∪ D.toFinset)).card := by
  induction D using List.reverseRecOn with
  | nil =>
    rw [toFinset_nil, Finset.union_empty]
    exact hmention
  | append_singleton D e ih =>
    have hset : S ∪ (D ++ [e]).toFinset = insert e (S ∪ D.toFinset) := by
      ext x
      simp only [Finset.mem_union, mem_toFinset, mem_append, mem_singleton, Finset.mem_insert]
      tauto
    have hbefore : ∀ x ∈ D, x.Says := fun x hx => hD x (mem_append_left _ hx)
    rw [foldl_append, hset]
    refine mentions_rowNotice (hD e (mem_append_right _ (mem_singleton_self e)))
      (counts_foldl hbefore h) (ih hbefore fun p x q hp => ?_) (hturn D e [] rfl)
    exact hturn p x (q ++ [e]) (by rw [hp, append_assoc]; rfl)

/-- **The newest version of the root is shown**, if every other one that knows of as many replies is
followed by it. -/
theorem shows_foldl {v : ThreadMessage} (ht : t.Counted)
    (hseq : ∀ e ∈ D, e.seq ≤ seq (.updated v)) (hlast : t.lastThreadSeq ≤ seq (.updated v))
    (hstart : t.Shows v ∧ seq (.updated v) ≤ t.lastThreadSeq ∨ .updated v ∈ D)
    (hfollowed : ∀ p u q, D = p ++ .updated u :: q → seq (.updated u) = seq (.updated v) → u ≠ v →
      .updated v ∈ q) : (D.foldl (rowNotice userId) t).Shows v := by
  induction D generalizing t with
  | nil => exact (hstart.resolve_right not_mem_nil).1
  | cons e D ih =>
    have he := hD e (.head _)
    have hle := hseq e (.head _)
    obtain ⟨hmax, -, hcounted⟩ := numbers_rowNotice userId he ht
    rw [foldl_cons]
    refine ih (fun x hx => hD x (.tail _ hx)) hcounted
      (fun x hx => hseq x (.tail _ hx)) (hmax ▸ max_le hlast hle) ?_
      fun p u q hp => hfollowed (e :: p) u q (by rw [hp]; rfl)
    by_cases hroot : ∃ u, e = .updated u
    · obtain ⟨u, rfl⟩ := hroot
      obtain ⟨thread, hthread⟩ := Option.isSome_iff_exists.mp he
      obtain ⟨-, -, -, -, -, holder, hnewer⟩ := withRoot_getD ht hthread
      have hrow : rowNotice userId t (.updated u) = (t.withRoot u thread).getD t := by
        rw [rowNotice, hthread, Option.elim_some]
      have hknows : seq (.updated u) = thread.lastThreadSeq := by rw [seq, hthread, Option.elim_some]
      by_cases hu : u = v
      · subst hu
        refine .inl ⟨hrow ▸ hnewer (hknows ▸ hlast), ?_⟩
        rw [hmax]
        exact le_max_right _ _
      · by_cases hsame : seq (.updated u) = seq (.updated v)
        · exact .inr (hfollowed [] u D rfl hsame hu)
        · -- one that knows of fewer replies is not taken where the newest is shown
          refine hstart.imp (fun h => ?_) fun h => ?_
          · have hlt : thread.lastThreadSeq < t.lastThreadSeq :=
              hknows ▸ (lt_of_le_of_ne hle hsame).trans_le h.2
            rw [hrow, holder hlt]
            exact h
          · refine (mem_cons.mp h).resolve_left fun heq => hu ?_
            exact (ThreadNotice.updated.inj heq).symm
    · have hsame : (rowNotice userId t e).SameRoot t :=
        sameRoot_rowNotice userId he ht fun u heq => hroot ⟨u, heq⟩
      refine hstart.imp (fun h => ⟨hsame.shows h.1, ?_⟩) fun h => ?_
      · rw [hmax]
        exact h.2.trans (le_max_left _ _)
      · exact (mem_cons.mp h).resolve_left fun heq => hroot ⟨v, heq.symm⟩

end All

/-! ## The list -/

section Lists

variable {threads : List FollowedThread} {t : FollowedThread} {rootId userId : Ulid}
  {S : Finset ThreadNotice} {e : ThreadNotice} {D : List ThreadNotice} {next : FollowedThread}

theorem replaceThread_self (hn : (threads.map fun x => x.root.id).Nodup) (ht : t ∈ threads)
    (hid : t.root.id = rootId) : replaceThread threads rootId t = threads := by
  refine (map_congr_left fun x hx => ?_).trans (map_id _)
  split
  · next hx' => exact inj_on_of_nodup_map hn ht hx (hid.trans hx'.symm)
  · rfl

theorem replaceThread_replaceThread (hid : t.root.id = rootId) :
    replaceThread (replaceThread threads rootId t) rootId next = replaceThread threads rootId next := by
  rw [replaceThread, replaceThread, map_map]
  refine map_congr_left fun x _ => ?_
  show (if (if x.root.id = rootId then t else x).root.id = rootId then next else _) = _
  by_cases hx : x.root.id = rootId
  · rw [if_pos hx, if_pos hid, if_pos hx]
  · rw [if_neg hx, if_neg hx]

theorem mem_replaceThread (ht : t ∈ threads) (hid : t.root.id = rootId) {x : FollowedThread} :
    x ∈ replaceThread threads rootId next ↔ x = next ∨ x ∈ threads ∧ x.root.id ≠ rootId := by
  rw [replaceThread, mem_map]
  constructor
  · rintro ⟨y, hy, rfl⟩
    split
    · exact .inl rfl
    · next hne => exact .inr ⟨hy, hne⟩
  · rintro (rfl | ⟨hx, hne⟩)
    · exact ⟨t, ht, if_pos hid⟩
    · exact ⟨x, hx, if_neg hne⟩

theorem ids_replaceThread (hid : next.root.id = rootId) :
    (replaceThread threads rootId next).map (fun x => x.root.id) = threads.map fun x => x.root.id := by
  rw [replaceThread, map_map]
  refine map_congr_left fun x _ => ?_
  show (if x.root.id = rootId then next else x).root.id = x.root.id
  split
  · next hx => rw [hid, hx]
  · rfl

/-- A notice is of a thread. -/
def ThreadNotice.Of (rootId : Ulid) : ThreadNotice → Prop
  | .created reply => reply.threadRootId = some rootId ∧ reply.thread = none
  | .updated root => root.id = rootId ∧ root.threadRootId = none
  | .read id _ => id = rootId

/-- A reply and a read position write one row, where it is. -/
theorem applyThreadNotice_eq (he : e.Says) (hof : e.Of rootId) (ht' : t.Counted)
    (hn : (threads.map fun x => x.root.id).Nodup) (ht : t ∈ threads) (hid : t.root.id = rootId)
    (hnot : ∀ u, e ≠ .updated u) :
    applyThreadNotice userId threads e = replaceThread threads rootId (rowNotice userId t e) := by
  cases e with
  | created reply =>
    obtain ⟨hroot, hthread⟩ := hof
    obtain ⟨k, hk, -⟩ := he
    obtain ⟨-, -, -, hsame, -⟩ := withReply_getD userId hk ht'
    set replied := (t.withReply reply userId).getD t
    have hreplied : applyReplyToThreads threads reply userId =
        replaceThread threads rootId replied := by
      rw [applyReplyToThreads, hroot]
      exact perm_updateThread hn ht hid
    have hid' : replied.root.id = rootId := (congrArg FollowedRoot.id hsame.1).trans hid
    have hn' : ((replaceThread threads rootId replied).map fun x => x.root.id).Nodup := by
      rw [ids_replaceThread hid']
      exact hn
    simp only [applyThreadNotice, absorbThreadMessage, hroot, hthread, hk, rowNotice,
      Option.isSome_none, Option.elim_some, if_true, Bool.false_eq_true, if_false, hreplied]
    split
    · rw [applyThreadRead, perm_updateThread hn' ((mem_replaceThread ht hid).mpr (.inl rfl)) hid',
        replaceThread_replaceThread hid']
    · rfl
  | updated root => exact absurd rfl (hnot root)
  | read id =>
    obtain rfl : id = rootId := hof
    exact perm_updateThread hn ht hid

/-- A version of the root writes one row, and puts the list in order. -/
theorem applyThreadNotice_updated (userId : Ulid) {root : ThreadMessage} (he : (ThreadNotice.updated root).Says)
    (hof : (ThreadNotice.updated root).Of rootId) (hn : (threads.map fun x => x.root.id).Nodup)
    (ht : t ∈ threads) (hid : t.root.id = rootId) :
    applyThreadNotice userId threads (.updated root) = threads ∧
      rowNotice userId t (.updated root) = t ∨
    applyThreadNotice userId threads (.updated root) =
      (replaceThread threads rootId (rowNotice userId t (.updated root))).insertionSort
        FollowedThread.Before := by
  obtain ⟨hroot, hnone⟩ := hof
  obtain ⟨thread, hthread⟩ := Option.isSome_iff_exists.mp he
  simp only [applyThreadNotice, absorbThreadMessage, hnone, hthread, Option.isSome_some, if_true,
    applyRootToThreads, rowNotice, Option.elim_some]
  rw [hroot, updateThread_eq hn ht hid]
  cases t.withRoot root thread with
  | none => exact .inl ⟨rfl, rfl⟩
  | some => exact .inr rfl

/-- **A notice writes one row**, and only a version of the root moves rows. -/
theorem perm_applyThreadNotice (userId : Ulid) (he : e.Says) (hof : e.Of rootId) (ht' : t.Counted)
    (hn : (threads.map fun x => x.root.id).Nodup) (ht : t ∈ threads) (hid : t.root.id = rootId) :
    (applyThreadNotice userId threads e).Perm
      (replaceThread threads rootId (rowNotice userId t e)) := by
  by_cases hroot : ∃ u, e = .updated u
  · obtain ⟨u, rfl⟩ := hroot
    rcases applyThreadNotice_updated userId he hof hn ht hid with ⟨heq, hrow⟩ | heq
    · rw [heq, hrow, replaceThread_self hn ht hid]
    · rw [heq]
      exact perm_insertionSort _ _
  · exact List.Perm.of_eq (applyThreadNotice_eq he hof ht' hn ht hid fun u heq => hroot ⟨u, heq⟩)

/-- **The list stays in order.** -/
theorem pairwise_applyThreadNotice (he : e.Says) (hof : e.Of rootId) (ht' : t.Counted)
    (hn : (threads.map fun x => x.root.id).Nodup) (ht : t ∈ threads) (hid : t.root.id = rootId)
    (hsorted : threads.Pairwise FollowedThread.Before) :
    (applyThreadNotice userId threads e).Pairwise FollowedThread.Before := by
  by_cases hroot : ∃ u, e = .updated u
  · obtain ⟨u, rfl⟩ := hroot
    rcases applyThreadNotice_updated userId he hof hn ht hid with ⟨heq, -⟩ | heq
    · rw [heq]
      exact hsorted
    · rw [heq]
      exact pairwise_insertionSort _ _
  · have hnot : ∀ u, e ≠ .updated u := fun u heq => hroot ⟨u, heq⟩
    rw [applyThreadNotice_eq he hof ht' hn ht hid hnot]
    have hsame := sameRoot_rowNotice userId he ht' hnot
    -- the row that is written keeps what the order goes by
    have hkeys : ∀ x ∈ threads, ∀ y, y = (if x.root.id = rootId then rowNotice userId t e else x) →
        y.lastReplyAt = x.lastReplyAt ∧ y.root.id = x.root.id := by
      rintro x hx y rfl
      split
      · next hx' =>
        obtain rfl := inj_on_of_nodup_map hn ht hx (hid.trans hx'.symm)
        exact ⟨hsame.2.2, congrArg FollowedRoot.id hsame.1⟩
      · exact ⟨rfl, rfl⟩
    rw [replaceThread, pairwise_map]
    refine hsorted.imp_of_mem fun {x y} hx hy h => ?_
    obtain ⟨hxat, hxid⟩ := hkeys x hx _ rfl
    obtain ⟨hyat, hyid⟩ := hkeys y hy _ rfl
    rw [FollowedThread.Before, byLastReply_le_zero, hxat, hxid, hyat, hyid]
    exact byLastReply_le_zero.mp h

/-- All that arrives writes one row. -/
theorem foldl_applyThreadNotice (hsaid : ∀ e ∈ D, e.Says) (hof : ∀ e ∈ D, e.Of rootId)
    (hcounts : t.Counts userId S) (hn : (threads.map fun x => x.root.id).Nodup) (ht : t ∈ threads)
    (hid : t.root.id = rootId) (hsorted : threads.Pairwise FollowedThread.Before) :
    (D.foldl (applyThreadNotice userId) threads).Perm
      (replaceThread threads rootId (D.foldl (rowNotice userId) t)) ∧
    (D.foldl (rowNotice userId) t).root.id = rootId ∧
    (D.foldl (applyThreadNotice userId) threads).Pairwise FollowedThread.Before := by
  induction D generalizing threads t S with
  | nil => exact ⟨List.Perm.of_eq (replaceThread_self hn ht hid).symm, hid, hsorted⟩
  | cons e D ih =>
    have he := hsaid e (.head _)
    have hof' := hof e (.head _)
    have hperm := perm_applyThreadNotice userId he hof' hcounts.unreadCount hn ht hid
    have hid' : (rowNotice userId t e).root.id = rootId :=
      (id_rowNotice he hcounts.unreadCount).trans hid
    have hn' : ((applyThreadNotice userId threads e).map fun x => x.root.id).Nodup := by
      rw [(hperm.map _).nodup_iff, ids_replaceThread hid']
      exact hn
    have hrow : rowNotice userId t e ∈ applyThreadNotice userId threads e :=
      hperm.mem_iff.mpr ((mem_replaceThread ht hid).mpr (.inl rfl))
    obtain ⟨hrest, hlast, hpairwise⟩ := ih (fun x hx => hsaid x (.tail _ hx))
      (fun x hx => hof x (.tail _ hx)) (counts_rowNotice he hcounts) hn' hrow hid'
      (pairwise_applyThreadNotice he hof' hcounts.unreadCount hn ht hid hsorted)
    refine ⟨?_, hlast, hpairwise⟩
    rw [foldl_cons, foldl_cons]
    refine hrest.trans ?_
    have hsame : replaceThread (replaceThread threads rootId (rowNotice userId t e)) rootId
        (D.foldl (rowNotice userId) (rowNotice userId t e)) =
          replaceThread threads rootId (D.foldl (rowNotice userId) (rowNotice userId t e)) :=
      replaceThread_replaceThread hid'
    rw [← hsame]
    exact hperm.map _

end Lists

/-! ## Deliveries -/

/-- **The followed threads converge.** Of one thread in a list that is in order, the row is as the
server gave it at some time, and all that the server says of it later arrives, in any order and any
number of times, with some of what it said before. Then the row has the last reply and the last read
position, and what is unread is what lies between; it shows the newest version of its root, if each
other version that knows of as many replies is followed by it; it counts the replies that are not read
and mention the user, if all that arrives comes in turn; and the list has the same threads, the others
as they were, in order. That is the order of the server, if no two of its threads were replied to last
in one millisecond. -/
theorem followed_threads_converge {userId rootId : Ulid} {E E' : Finset ThreadNotice}
    {D : List ThreadNotice} {threads : List FollowedThread} {t : FollowedThread}
    (hE : ThreadHistory rootId (E ∪ E')) (hn : (threads.map fun x => x.root.id).Nodup)
    (hsorted : threads.Pairwise FollowedThread.Before) (ht : t ∈ threads) (hid : t.root.id = rootId)
    (hrow : t.Reflects userId E) (hD : ∀ e ∈ D, e ∈ E ∪ E') (hall : ∀ e ∈ E', e ∈ D) :
    ∃ t', (∀ x, x ∈ D.foldl (applyThreadNotice userId) threads ↔
        x = t' ∨ x ∈ threads ∧ x.root.id ≠ rootId) ∧
      t'.root.id = rootId ∧ t'.lastThreadSeq = lastSeq (E ∪ E') ∧
      t'.lastReadThreadSeq = lastRead userId (E ∪ E') ∧
      t'.unreadCount = t'.lastThreadSeq - t'.lastReadThreadSeq ∧
      (∀ v, Newest (E ∪ E') v → (∀ p u q, D = p ++ .updated u :: q →
        seq (.updated u) = seq (.updated v) → u ≠ v → .updated v ∈ q) → t'.Shows v) ∧
      ((∀ p e q, D = p ++ e :: q → InTurn userId (E ∪ p.toFinset) e) →
        t'.mentionCount = (unreadMentions userId (E ∪ E')).card) ∧
      (D.foldl (applyThreadNotice userId) threads).Pairwise FollowedThread.Before ∧
      ((∀ x ∈ D.foldl (applyThreadNotice userId) threads,
        ∀ y ∈ D.foldl (applyThreadNotice userId) threads,
        x.lastReplyAt.parse = y.lastReplyAt.parse → x.lastReplyAt = y.lastReplyAt) →
        (D.foldl (applyThreadNotice userId) threads).Pairwise FollowedThread.ServerBefore) := by
  have hset : E ∪ D.toFinset = E ∪ E' := by
    ext x
    rw [Finset.mem_union, Finset.mem_union, mem_toFinset]
    refine ⟨fun h => h.elim .inl fun hx => Finset.mem_union.mp (hD x hx), fun h => ?_⟩
    exact h.imp_right (hall x)
  have hsaid : ∀ e ∈ E ∪ E', e.Says := by
    intro e he
    cases e with
    | created reply =>
      obtain ⟨-, -, hsome, hne⟩ := hE.reply reply he
      obtain ⟨k, hk⟩ := Option.isSome_iff_exists.mp hsome
      exact ⟨k, hk, Nat.pos_of_ne_zero fun h => hne (by rw [hk, h])⟩
    | updated root => exact (hE.root root he).2.2
    | read => trivial
  have hof : ∀ e ∈ E ∪ E', e.Of rootId := by
    intro e he
    cases e with
    | created reply => exact ⟨(hE.reply reply he).1, (hE.reply reply he).2.1⟩
    | updated root => exact ⟨(hE.root root he).1, (hE.root root he).2.1⟩
    | read id k => exact hE.read id k he
  have hcounts := counts_foldl (fun e he => hsaid e (hD e he)) hrow.toCounts
  obtain ⟨hperm, hid', hpairwise⟩ := foldl_applyThreadNotice (fun e he => hsaid e (hD e he))
    (fun e he => hof e (hD e he)) hrow.toCounts hn ht hid hsorted
  rw [hset] at hcounts
  refine ⟨D.foldl (rowNotice userId) t, fun x => hperm.mem_iff.trans (mem_replaceThread ht hid), hid',
    hcounts.lastThreadSeq, hcounts.lastReadThreadSeq, hcounts.unreadCount,
    fun v hv hfollowed => ?_, fun hturn => ?_, hpairwise, fun hapart => ?_⟩
  · -- the newest version knows of every reply
    have hknows : ∀ e ∈ E ∪ E', e.seq ≤ seq (.updated v) := by
      intro e he
      cases e with
      | created reply =>
        obtain ⟨u, hu, hle⟩ := hE.known reply he
        exact hle.trans (hE.grows u v hu hv.1 (hv.2 u hu))
      | updated root => exact hE.grows root v he hv.1 (hv.2 root he)
      | read => exact Nat.zero_le _
    refine shows_foldl (fun e he => hsaid e (hD e he)) hrow.unreadCount
      (fun e he => hknows e (hD e he)) ?_ ?_ hfollowed
    · rw [hrow.lastThreadSeq]
      exact Finset.sup_le fun e he => hknows e (Finset.mem_union_left _ he)
    · rcases Finset.mem_union.mp hv.1 with hold | hnew
      · refine .inl ⟨hrow.shows v ⟨hold, fun u hu => hv.2 u (Finset.mem_union_left _ hu)⟩, ?_⟩
        rw [hrow.lastThreadSeq]
        exact Finset.le_sup (f := seq) hold
      · exact .inr (hall _ hnew)
  · rw [← hset]
    exact mentions_foldl (fun e he => hsaid e (hD e he)) hrow.toCounts hrow.mentionCount hturn
  · exact hpairwise.imp_of_mem fun {x y} hx hy h => h.serverBefore (hapart x hx y hy)

/-! ## A thread to try things on -/

/-- Reply `k` in the thread of message 1. -/
def threadReply (k : ℕ) (mentions : List Mention) : ThreadNotice :=
  .created { Message.said 2 (k + 1) (2 * k) with
    threadRootId := some 1
    mentions := mentions
    threadSeq := some k
    thread := none }

/-- A version of message 1, with so many replies. -/
def threadRoot (changeSeq replyCount lastThreadSeq : ℕ) : ThreadNotice :=
  .updated { Message.said 2 1 changeSeq with
    threadSeq := none
    thread := some ⟨replyCount, lastThreadSeq, ⟨lastThreadSeq, [], Timestamp.trimmed_nil⟩⟩ }

/-- A reply, which user 9 has read. -/
def oneReply : Finset ThreadNotice := {threadReply 1 [], threadRoot 3 1 1, .read 1 1}

/-- Two replies that mention everybody, of which the first is read; then reply 1 is deleted. -/
def twoReplies : Finset ThreadNotice :=
  {threadReply 2 [⟨.channel, none⟩], threadRoot 5 2 2, threadReply 3 [⟨.channel, none⟩],
    threadRoot 7 3 3, .read 1 2, threadRoot 9 2 3}

/-- The row with one reply. -/
def followedRow : FollowedThread :=
  ⟨⟨1, "hello", false⟩, 1, ⟨1, [], Timestamp.trimmed_nil⟩, 1, 1, 0, true, 0⟩

theorem threadHistory_twoReplies : ThreadHistory 1 (oneReply ∪ twoReplies) := by
  have hcreated : ∀ m, .created m ∈ oneReply ∪ twoReplies →
      .created m = threadReply 2 [⟨.channel, none⟩] ∨
        .created m = threadReply 3 [⟨.channel, none⟩] ∨ .created m = threadReply 1 [] := by
    intro m hm
    simpa [oneReply, twoReplies, threadRoot, or_assoc] using hm
  have hupdated : ∀ m, .updated m ∈ oneReply ∪ twoReplies → .updated m = threadRoot 5 2 2 ∨
      .updated m = threadRoot 7 3 3 ∨ .updated m = threadRoot 3 1 1 ∨
        .updated m = threadRoot 9 2 3 := by
    intro m hm
    simpa [oneReply, twoReplies, threadReply, or_assoc] using hm
  refine ⟨fun m hm => ?_, fun m hm => ?_, fun id k hk => ?_, fun m m' hm hm' h => ?_,
    fun m m' hm hm' h => ?_, fun m m' hm hm' h => ?_, fun m hm => ?_⟩
  · rcases hcreated m hm with h | h | h <;> obtain rfl := ThreadNotice.created.inj h <;> decide
  · rcases hupdated m hm with h | h | h | h <;> obtain rfl := ThreadNotice.updated.inj h <;> decide
  · simp [oneReply, twoReplies, threadReply, threadRoot] at hk
    rcases hk with ⟨h, -⟩ | ⟨h, -⟩ <;> exact h
  · rcases hcreated m hm with e | e | e <;> obtain rfl := ThreadNotice.created.inj e <;>
      rcases hcreated m' hm' with e' | e' | e' <;> obtain rfl := ThreadNotice.created.inj e' <;>
      first
      | rfl
      | cases h
  · rcases hupdated m hm with e | e | e | e <;> obtain rfl := ThreadNotice.updated.inj e <;>
      rcases hupdated m' hm' with e' | e' | e' | e' <;> obtain rfl := ThreadNotice.updated.inj e' <;>
      first
      | rfl
      | exact nomatch h
  · rcases hupdated m hm with e | e | e | e <;> obtain rfl := ThreadNotice.updated.inj e <;>
      rcases hupdated m' hm' with e' | e' | e' | e' <;> obtain rfl := ThreadNotice.updated.inj e' <;>
      first
      | decide
      | exact nomatch h
  · refine ⟨_, Finset.mem_union_right _ (show threadRoot 9 2 3 ∈ twoReplies by decide), ?_⟩
    rcases hcreated m hm with h | h | h <;> rw [h] <;> decide

theorem reflects_followedRow : followedRow.Reflects 9 oneReply where
  lastThreadSeq := by decide
  lastReadThreadSeq := by decide
  unreadCount := rfl
  shows v hv := by
    have hmem : .updated v ∈ oneReply := hv.1
    have heq : .updated v = threadRoot 3 1 1 := by simpa [oneReply, threadReply] using hmem
    obtain rfl := ThreadNotice.updated.inj heq
    exact ⟨rfl, rfl, rfl, rfl⟩
  mentionCount := by decide

/-- The notices in the order of the server, some of them twice. -/
theorem followed_threads_converge_twoReplies : ∃ t',
    t' ∈ [threadReply 1 [], threadReply 2 [⟨.channel, none⟩], threadRoot 5 2 2,
      threadReply 3 [⟨.channel, none⟩], threadRoot 7 3 3, threadReply 2 [⟨.channel, none⟩],
      .read 1 2, threadRoot 9 2 3].foldl (applyThreadNotice 9) [followedRow] ∧
    t'.lastThreadSeq = 3 ∧ t'.unreadCount = 1 := by
  have hn : ([followedRow].map fun x => x.root.id).Nodup := nodup_singleton _
  have hconverge := followed_threads_converge (D := [threadReply 1 [],
      threadReply 2 [⟨.channel, none⟩], threadRoot 5 2 2, threadReply 3 [⟨.channel, none⟩],
      threadRoot 7 3 3, threadReply 2 [⟨.channel, none⟩], .read 1 2, threadRoot 9 2 3])
    threadHistory_twoReplies hn (pairwise_singleton _ _) (.head _) rfl
    reflects_followedRow (by decide) (by decide)
  obtain ⟨t', hmem, -, hlast, hread, hunread, -⟩ := hconverge
  have hseq : lastSeq (oneReply ∪ twoReplies) = 3 := by decide
  have hreads : lastRead 9 (oneReply ∪ twoReplies) = 2 := by decide
  refine ⟨t', (hmem t').mpr (.inl rfl), hlast.trans hseq, ?_⟩
  rw [hunread, hlast, hread, hseq, hreads]

/-- **What goes wrong**: the version of the root without reply 1 is overtaken by the one before it, and
the row counts the reply that is gone; and the read position reads one of two mentions, which still
counts as two. -/
theorem followed_threads_diverge : ∃ D : List ThreadNotice,
    ThreadHistory 1 (oneReply ∪ twoReplies) ∧ followedRow.Reflects 9 oneReply ∧
    (∀ e ∈ D, e ∈ oneReply ∪ twoReplies) ∧ (∀ e ∈ twoReplies, e ∈ D) ∧
    (∃ v, Newest (oneReply ∪ twoReplies) v ∧
      ∀ x ∈ D.foldl (applyThreadNotice 9) [followedRow], ¬ x.Shows v) ∧
    ∀ x ∈ D.foldl (applyThreadNotice 9) [followedRow],
      x.mentionCount ≠ (unreadMentions 9 (oneReply ∪ twoReplies)).card := by
  refine ⟨[threadReply 2 [⟨.channel, none⟩], threadRoot 5 2 2, threadReply 3 [⟨.channel, none⟩],
    threadRoot 9 2 3, threadRoot 7 3 3, .read 1 2], threadHistory_twoReplies, reflects_followedRow,
    by decide, by decide, ⟨_, ⟨Finset.mem_union_right _ (show threadRoot 9 2 3 ∈ twoReplies by decide),
      fun u hu => ?_⟩, fun x hx hshows => ?_⟩, by decide⟩
  · have hnine : ∀ e ∈ oneReply ∪ twoReplies, ∀ u, e = .updated u → u.changeSeq ≤ 9 := by
      intro e he u heu
      simp only [oneReply, twoReplies, Finset.mem_union, Finset.mem_insert, Finset.mem_singleton] at he
      rcases he with (rfl | rfl | rfl) | (rfl | rfl | rfl | rfl | rfl | rfl) <;>
        first
        | exact absurd heu (by simp [threadReply])
        | (obtain rfl := ThreadNotice.updated.inj heu; decide)
    exact hnine _ hu u rfl
  · have hcount : x.replyCount = 3 := by
      clear hshows
      revert x
      decide
    cases hcount ▸ hshows.replyCount

end Hibari
