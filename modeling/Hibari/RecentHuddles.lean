import Hibari.Message
import Hibari.TransitionSystem

/-!
# The list of past huddles

The client shows the past huddles of a workspace page by page: `load` fetches the first page of a
query, `loadMore` the page after the cursor, and a generation tells the answers that are still
wanted. A reload of the same query keeps the rows and the cursor it had until the first page is
there. A first page that fails leaves an empty list, to be loaded again.

**What is shown has no hole** (`recent_huddles_contiguous`) in runs that ask for no further page
while a first page is on its way: the page after the old cursor would be put behind the rows of the
new one.
-/

namespace Hibari

open List TransitionSystem

/-- What past huddles are asked for: a filter, and a participant or a room if there is one. -/
structure RecentHuddlesQuery where
  filter : String
  participantId : Option Ulid
  roomId : Option Ulid
  deriving DecidableEq

/-- A page of past huddles, newest first. -/
structure HuddlePage where
  huddles : List Ulid
  nextCursor : Option Ulid
  deriving DecidableEq

/-- The page of at most `limit` huddles, of all of them or of those after the cursor. -/
def huddlePage (list : List Ulid) (before : Option Ulid) (limit : ℕ) : HuddlePage :=
  let rest := before.elim list fun c => (list.dropWhile (· ≠ c)).tail
  ⟨rest.take limit, if limit < rest.length then (rest.take limit).getLast? else none⟩

inductive RecentStatus
  | idle
  | loading
  | ready
  deriving DecidableEq

/-- A request for a page, and the page once the server has answered. -/
structure HuddleRequest where
  workspaceId : Ulid
  query : RecentHuddlesQuery
  before : Option Ulid
  generation : ℕ
  answer : Option HuddlePage
  deriving DecidableEq

/-- **The client's list and the server's**: the state of the screen, the requests in flight, and the
past huddles of each workspace and query. Of the suggestions the state says whose they are; `first`
is the last first page that was applied, and `failed` says that one failed after it. -/
structure RecentHuddles where
  workspaceId : Option Ulid
  query : Option RecentHuddlesQuery
  status : RecentStatus
  items : List Ulid
  nextCursor : Option Ulid
  loadingMore : Bool
  suggestions : Option Ulid
  generation : ℕ
  requests : List HuddleRequest
  lists : Ulid → RecentHuddlesQuery → List Ulid
  first : List Ulid
  failed : Bool

/-- What happens: the screen asks, the server ends a huddle or answers a request, and an answer or a
failure arrives. Suggestions may arrive whenever they like. -/
inductive RecentAction
  | load (workspaceId : Ulid) (query : RecentHuddlesQuery)
  | loadMore
  | suggested (workspaceId : Ulid)
  | ended (workspaceId : Ulid) (query : RecentHuddlesQuery) (id : Ulid)
  | serve (i limit : ℕ)
  | deliver (i : ℕ)
  | fail (i : ℕ)
  deriving DecidableEq

namespace RecentHuddles

variable (s : RecentHuddles)

def load (workspaceId : Ulid) (query : RecentHuddlesQuery) : RecentHuddles :=
  let sameList := s.workspaceId = some workspaceId ∧ s.query = some query
  { s with
    generation := s.generation + 1
    workspaceId := some workspaceId
    query := some query
    status := .loading
    items := if sameList then s.items else []
    nextCursor := if sameList then s.nextCursor else none
    loadingMore := false
    suggestions := if s.workspaceId = some workspaceId then s.suggestions else none
    requests := s.requests ++ [⟨workspaceId, query, none, s.generation + 1, none⟩] }

def loadMore : RecentHuddles :=
  match s.workspaceId, s.query, s.nextCursor, s.loadingMore with
  | some workspaceId, some query, some cursor, false => { s with
      loadingMore := true
      requests := s.requests ++ [⟨workspaceId, query, some cursor, s.generation, none⟩] }
  | _, _, _, _ => s

/-- The answer of a request that is still wanted. -/
def receive (before : Option Ulid) (page : HuddlePage) : RecentHuddles :=
  match before with
  | none => { s with
      status := .ready, items := page.huddles, nextCursor := page.nextCursor, loadingMore := false
      first := page.huddles, failed := false }
  | some _ => { s with
      items := s.items ++ page.huddles.filter (· ∉ s.items)
      nextCursor := page.nextCursor
      loadingMore := false }

/-- The failure of a request that is still wanted. -/
def lose (before : Option Ulid) : RecentHuddles :=
  match before with
  | none => { s with status := .ready, items := [], nextCursor := none, failed := true }
  | some _ => { s with loadingMore := false }

def step : RecentAction → Option RecentHuddles
  | .load workspaceId query => some (s.load workspaceId query)
  | .loadMore => some s.loadMore
  | .suggested workspaceId =>
    some (if s.workspaceId.any (· ≠ workspaceId) then s
      else { s with suggestions := some workspaceId })
  | .ended workspaceId query id =>
    if id ∈ s.lists workspaceId query then none
    else some { s with
      lists := Function.update s.lists workspaceId
        (Function.update (s.lists workspaceId) query (id :: s.lists workspaceId query)) }
  | .serve i limit =>
    if 0 < limit then some { s with requests := s.requests.modify i fun r => { r with
      answer := some (huddlePage (s.lists r.workspaceId r.query) r.before limit) } }
    else none
  | .deliver i => do
    let r ← s.requests[i]?
    let page ← r.answer
    let rest := { s with requests := s.requests.eraseIdx i }
    some (if r.generation = s.generation then rest.receive r.before page else rest)
  | .fail i => do
    let r ← s.requests[i]?
    let rest := { s with requests := s.requests.eraseIdx i }
    some (if r.generation = s.generation then rest.lose r.before else rest)

/-- No further page is asked for while a first page is on its way. -/
def Heeds (s : RecentHuddles) (a : RecentAction) : Prop := a = .loadMore → s.status ≠ .loading

instance : DecidablePred s.Heeds := fun a => inferInstanceAs (Decidable (a = _ → _))

/-- Rows in one piece of a list, and the cursor after them. -/
def Piece (list rows : List Ulid) (nextCursor : Option Ulid) : Prop :=
  ∃ pre post, list = pre ++ rows ++ post ∧ (nextCursor = none ↔ post = []) ∧
    ∀ c, nextCursor = some c → rows.getLast? = some c

/-- **No hole and no stale row**: a list that is ready is one piece of the server's list that starts
with the last first page, each huddle once, with the cursor after its last row – or empty, after a
first page that failed; and the suggestions are of the workspace. -/
structure Sound : Prop where
  piece : s.status = .ready → s.failed = false → ∃ workspaceId query,
    s.workspaceId = some workspaceId ∧ s.query = some query ∧ s.items.Nodup ∧ s.first <+: s.items ∧
      Piece (s.lists workspaceId query) s.items s.nextCursor
  failed : s.status = .ready → s.failed → s.items = [] ∧ s.nextCursor = none
  suggestions : ∀ w w', s.workspaceId = some w → s.suggestions = some w' → w = w'

end RecentHuddles

/-- The runs of the screen, from any lists of the server. -/
def recentHuddles : TransitionSystem RecentHuddles RecentAction where
  init s := ∃ lists : Ulid → RecentHuddlesQuery → List Ulid, (∀ w q, (lists w q).Nodup) ∧
    s = ⟨none, none, .idle, [], none, false, none, 0, [], lists, [], false⟩
  step := RecentHuddles.step

namespace RecentHuddles

variable {s s' : RecentHuddles} {list rows : List Ulid} {before nextCursor : Option Ulid}
  {page : HuddlePage} {r : HuddleRequest} {i j limit : ℕ}

/-- A page that follows its cursor in the list. -/
def Follows (list : List Ulid) (before : Option Ulid) (page : HuddlePage) : Prop :=
  ∃ pre post, list = pre ++ page.huddles ++ post ∧ (∀ c, before = some c → pre.getLast? = some c) ∧
    (page.nextCursor = none ↔ post = []) ∧
    ∀ c, page.nextCursor = some c → page.huddles.getLast? = some c

theorem huddlePage_follows (hlimit : 0 < limit) (hbefore : ∀ c, before = some c → c ∈ list) :
    Follows list before (huddlePage list before limit) := by
  obtain ⟨pre, hpre, hlast⟩ : ∃ pre, list = pre ++ before.elim list
      (fun c => (list.dropWhile (· ≠ c)).tail) ∧ ∀ c, before = some c → pre.getLast? = some c := by
    cases before with
    | none => exact ⟨[], rfl, nofun⟩
    | some c =>
      have hne : list.dropWhile (· ≠ c) ≠ [] := fun hnil =>
        absurd (dropWhile_eq_nil_iff.mp hnil c (hbefore c rfl)) (by simp)
      have hhead : (list.dropWhile (· ≠ c)).head hne = c := by
        simpa using head_dropWhile_not (· ≠ c) hne
      refine ⟨list.takeWhile (· ≠ c) ++ [c], ?_, fun _ hc => Option.some.inj hc ▸ getLast?_concat⟩
      rw [append_assoc, singleton_append, Option.elim_some]
      conv_lhs => rw [← takeWhile_append_dropWhile (p := (· ≠ c)) (l := list),
        ← cons_head_tail hne, hhead]
  unfold huddlePage
  generalize before.elim list (fun c => (list.dropWhile (· ≠ c)).tail) = rest at hpre
  refine ⟨pre, rest.drop limit, by rw [append_assoc, take_append_drop, ← hpre], hlast, ?_, ?_⟩
  · dsimp only
    rw [drop_eq_nil_iff]
    split
    · next hlt =>
      refine ⟨fun hnone => ?_, fun hle => absurd hlt (not_lt.mpr hle)⟩
      have hnil := (getLast?_eq_none_iff.mp hnone) ▸ length_take_of_le hlt.le
      exact absurd hnil hlimit.ne
    · next hle => exact ⟨fun _ => not_lt.mp hle, fun _ => rfl⟩
  · intro c hc
    dsimp only at hc
    split at hc
    · exact hc
    · cases hc

/-- A page put behind the rows it follows. -/
theorem Piece.append {c : Ulid} (hlist : list.Nodup) (hrows : Piece list rows (some c))
    (hpage : Follows list (some c) page) :
    rows ++ page.huddles.filter (· ∉ rows) = rows ++ page.huddles ∧
      Piece list (rows ++ page.huddles) page.nextCursor := by
  obtain ⟨pre, post, rfl, -, hlast⟩ := hrows
  obtain ⟨pre', post', heq, hpre, hnone, hcursor⟩ := hpage
  obtain ⟨rows, rfl⟩ := getLast?_eq_some_iff.mp (hlast c rfl)
  obtain ⟨before, rfl⟩ := getLast?_eq_some_iff.mp (hpre c rfl)
  -- the cursor is in the list once, so that the page is what follows the rows
  have hsplit : (pre ++ rows) ++ c :: post = before ++ c :: (page.huddles ++ post') := by
    simpa using heq
  have hnodup : ((pre ++ rows) ++ c :: post).Nodup := by simpa using hlist
  have hmem : c ∉ pre ++ rows := fun hc => (nodup_append.mp hnodup).2.2 c hc c (.head _) rfl
  obtain ⟨-, -, rfl⟩ := (append_cons_inj_of_notMem hmem
    (nodup_cons.mp (nodup_append.mp hnodup).2.1).1).mp hsplit
  refine ⟨congrArg _ (filter_eq_self.mpr fun a ha => decide_eq_true fun hrow => ?_),
    pre, post', by simp, hnone, fun d hd => ?_⟩
  · exact (nodup_append.mp hlist).2.2 a (mem_append_right _ hrow) a (mem_append_left _ ha) rfl
  · rw [getLast?_append, hcursor d hd, Option.some_or]

theorem Piece.cons (id : Ulid) : Piece list rows nextCursor → Piece (id :: list) rows nextCursor :=
  fun ⟨pre, post, h, hrest⟩ => ⟨id :: pre, post, by rw [h]; rfl, hrest⟩

theorem Follows.cons (id : Ulid) (h : Follows list before page) :
    Follows (id :: list) before page := by
  obtain ⟨pre, post, rfl, hpre, hrest⟩ := h
  refine ⟨id :: pre, post, rfl, fun c hc => ?_, hrest⟩
  rw [getLast?_cons, hpre c hc]
  rfl

/-- A request that is still wanted is one for the first page of a list that loads, or for the page
after the cursor of one that is ready. -/
def Wanted (s : RecentHuddles) (r : HuddleRequest) : Prop :=
  s.workspaceId = some r.workspaceId ∧ s.query = some r.query ∧
    match r.before with
    | none => s.status = .loading
    | some c => s.status = .ready ∧ s.failed = false ∧ s.nextCursor = some c ∧ s.loadingMore

/-- **What every step keeps**: the lists of the server, an answer for what was asked, and one
request at most that is still wanted. -/
structure Kept (s : RecentHuddles) : Prop where
  sound : s.Sound
  lists : ∀ w q, (s.lists w q).Nodup
  requests : ∀ r ∈ s.requests, r.generation ≤ s.generation ∧
    (∀ c, r.before = some c → c ∈ s.lists r.workspaceId r.query) ∧
    ∀ page ∈ r.answer, Follows (s.lists r.workspaceId r.query) r.before page
  wanted : ∀ r ∈ s.requests, r.generation = s.generation → s.Wanted r
  one : s.requests.Pairwise fun r r' => r.generation = s.generation → r'.generation ≠ s.generation
  idle : s.status = .idle → s.workspaceId = none

theorem Kept.load {w : Ulid} {q : RecentHuddlesQuery} (h : s.Kept) : (s.load w q).Kept := by
  refine ⟨⟨nofun, nofun, fun w₁ w₂ hw hsug => ?_⟩, h.lists, ?_, fun r hr hgen => ?_, ?_, nofun⟩
  · cases hw
    dsimp only [RecentHuddles.load] at hsug
    split at hsug
    · next hsame => exact h.sound.suggestions _ _ hsame hsug
    · cases hsug
  · refine forall_mem_append.mpr ⟨fun r hr => ?_, forall_mem_singleton.mpr ⟨le_rfl, nofun, nofun⟩⟩
    exact ⟨(h.requests r hr).1.trans (Nat.le_succ _), (h.requests r hr).2⟩
  · obtain hr | hr := mem_append.mp hr
    · exact absurd (hgen ▸ (h.requests r hr).1) (Nat.not_succ_le_self _)
    · cases mem_singleton.mp hr
      exact ⟨rfl, rfl, rfl⟩
  · refine pairwise_append.mpr ⟨?_, pairwise_singleton .., fun r hr _ _ hgen => ?_⟩
    · exact h.one.imp_of_mem fun hr _ _ hgen =>
        absurd (hgen ▸ (h.requests _ hr).1) (Nat.not_succ_le_self _)
    · exact absurd (hgen ▸ (h.requests r hr).1) (Nat.not_succ_le_self _)

theorem Kept.loadMore (h : s.Kept) (hheeds : s.status ≠ .loading) : s.loadMore.Kept := by
  unfold RecentHuddles.loadMore
  split
  · next w q c hw hq hc hmore =>
    have hready : s.status = .ready := by
      cases hstatus : s.status with
      | idle => exact nomatch (h.idle hstatus).symm.trans hw
      | loading => exact absurd hstatus hheeds
      | ready => rfl
    have hfailed : s.failed = false := eq_false_of_ne_true fun hfailed =>
      nomatch (h.sound.failed hready hfailed).2.symm.trans hc
    have hnone : ∀ r ∈ s.requests, r.generation ≠ s.generation := fun r hr hgen => by
      obtain ⟨-, -, hwanted⟩ := h.wanted r hr hgen
      split at hwanted
      · exact hheeds hwanted
      · exact nomatch hmore.symm.trans hwanted.2.2.2
    obtain ⟨w', q', hw', hq', -, -, pre, post, heq, -, hlast⟩ := h.sound.piece hready hfailed
    cases hw.symm.trans hw'
    cases hq.symm.trans hq'
    refine ⟨{ h.sound with }, h.lists, forall_mem_append.mpr ⟨h.requests, forall_mem_singleton.mpr
      ⟨le_rfl, fun _ hd => ?_, nofun⟩⟩, fun r hr hgen => ?_, ?_, h.idle⟩
    · cases hd
      rw [heq]
      exact mem_append_left _ (mem_append_right _ (mem_of_getLast? (hlast c hc)))
    · obtain hr | hr := mem_append.mp hr
      · exact absurd hgen (hnone r hr)
      · cases mem_singleton.mp hr
        exact ⟨hw, hq, hready, hfailed, hc, rfl⟩
    · exact pairwise_append.mpr ⟨h.one, pairwise_singleton .., fun r hr _ _ hgen =>
        absurd hgen (hnone r hr)⟩
  · exact h

/-- A request that is answered or fails is gone, and if it was wanted none is left that is. -/
theorem Kept.taken (h : s.Kept) (hr : s.requests[i]? = some r)
    (hgen : r.generation = s.generation) :
    ∀ r' ∈ s.requests.eraseIdx i, r'.generation ≠ s.generation := by
  intro r' hr'
  obtain ⟨j, hji, hr'⟩ := mem_eraseIdx_iff_getElem?.mp hr'
  obtain ⟨hi, rfl⟩ := List.getElem?_eq_some_iff.mp hr
  obtain ⟨hj, rfl⟩ := List.getElem?_eq_some_iff.mp hr'
  obtain hlt | hlt := lt_or_gt_of_ne hji
  · exact fun hgen' => pairwise_iff_getElem.mp h.one j i hj hi hlt hgen' hgen
  · exact pairwise_iff_getElem.mp h.one i j hi hj hlt hgen

theorem Kept.rest (h : s.Kept) (i : ℕ) : Kept { s with requests := s.requests.eraseIdx i } :=
  { h with
    sound := { h.sound with }
    requests := fun r hr => h.requests r (mem_of_mem_eraseIdx hr)
    wanted := fun r hr => h.wanted r (mem_of_mem_eraseIdx hr)
    one := h.one.sublist (eraseIdx_sublist ..) }

theorem Kept.receive (h : s.Kept) (hwanted : s.Wanted r)
    (hnone : ∀ r' ∈ s.requests, r'.generation ≠ s.generation)
    (hpage : Follows (s.lists r.workspaceId r.query) r.before page) :
    (s.receive r.before page).Kept := by
  obtain ⟨hw, hq, hstatus⟩ := hwanted
  cases hbefore : r.before with
  | none =>
    rw [hbefore] at hpage
    obtain ⟨pre, post, heq, -, hrest⟩ := hpage
    refine ⟨⟨fun _ _ => ⟨_, _, hw, hq, ?_, prefix_rfl, pre, post, heq, hrest⟩, fun _ => nofun,
      h.sound.suggestions⟩, h.lists, h.requests, fun r hr hgen => absurd hgen (hnone r hr), h.one,
      nofun⟩
    have hnodup := h.lists r.workspaceId r.query
    rw [heq] at hnodup
    exact (nodup_append.mp (nodup_append.mp hnodup).1).2.1
  | some c =>
    rw [hbefore] at hpage hstatus
    obtain ⟨hready, hfailed, hcursor, -⟩ := hstatus
    obtain ⟨w, q, hw', hq', hnodup, hfirst, hpiece⟩ := h.sound.piece hready hfailed
    cases hw.symm.trans hw'
    cases hq.symm.trans hq'
    rw [hcursor] at hpiece
    obtain ⟨heq, hpiece⟩ := hpiece.append (h.lists _ _) hpage
    unfold RecentHuddles.receive
    dsimp only
    rw [heq]
    refine ⟨⟨fun _ _ => ⟨_, _, hw, hq, ?_, hfirst.trans (prefix_append ..), hpiece⟩,
      fun _ hf => (nomatch hfailed.symm.trans hf), h.sound.suggestions⟩, h.lists, h.requests,
      fun r hr hgen => absurd hgen (hnone r hr), h.one, h.idle⟩
    obtain ⟨pre, post, hlist, -⟩ := hpiece
    have hnodup := h.lists r.workspaceId r.query
    rw [hlist] at hnodup
    exact (nodup_append.mp (nodup_append.mp hnodup).1).2.1

theorem Kept.lose (h : s.Kept)
    (hnone : ∀ r' ∈ s.requests, r'.generation ≠ s.generation) : (s.lose r.before).Kept := by
  cases hbefore : r.before with
  | none =>
    exact ⟨⟨fun _ hf => (nomatch hf), fun _ _ => ⟨rfl, rfl⟩, h.sound.suggestions⟩, h.lists,
      h.requests, fun r hr hgen => absurd hgen (hnone r hr), h.one, nofun⟩
  | some c =>
    exact { h with
      sound := { h.sound with }
      wanted := fun r hr hgen => absurd hgen (hnone r hr) }

theorem kept_step {a : RecentAction} (h : s.Kept) (hheeds : s.Heeds a) (hs : s.step a = some s') :
    s'.Kept := by
  cases a with
  | load w q => cases hs; exact h.load
  | loadMore => cases hs; exact h.loadMore (hheeds rfl)
  | suggested w =>
    cases hs
    split
    · exact h
    · next hany =>
      refine { h with sound := { h.sound with suggestions := fun w₁ w₂ hw hsug => ?_ } }
      cases hsug
      by_contra hne
      exact hany (by rw [show s.workspaceId = some w₁ from hw]; exact decide_eq_true hne)
  | ended w q id =>
    obtain ⟨hnew, hs⟩ := Option.ite_none_left_eq_some.mp hs
    cases hs
    have hlist (w' q') (P : List Ulid → Prop) (hold : P (s.lists w' q'))
        (hcons : id ∉ s.lists w' q' → P (id :: s.lists w' q')) :
        P (Function.update s.lists w (Function.update (s.lists w) q (id :: s.lists w q))
          w' q') := by
      by_cases hw : w' = w
      · subst hw
        rw [Function.update_self]
        by_cases hq : q' = q
        · subst hq
          rw [Function.update_self]
          exact hcons hnew
        · rw [Function.update_of_ne hq]
          exact hold
      · rw [Function.update_of_ne hw]
        exact hold
    refine { h with
      sound := { h.sound with piece := fun hready hfailed => ?_ }
      lists := fun w' q' => hlist w' q' _ (h.lists w' q') fun hid =>
        nodup_cons.mpr ⟨hid, h.lists w' q'⟩
      requests := fun r hr => ⟨(h.requests r hr).1, fun c hc => ?_, fun page hpage => ?_⟩ }
    · obtain ⟨w', q', hw, hq, hnodup, hfirst, hpiece⟩ := h.sound.piece hready hfailed
      exact ⟨w', q', hw, hq, hnodup, hfirst,
        hlist w' q' (Piece · _ _) hpiece fun _ => hpiece.cons id⟩
    · have hmem := (h.requests r hr).2.1 c hc
      exact hlist _ _ (c ∈ ·) hmem fun _ => .tail _ hmem
    · have hfollows := (h.requests r hr).2.2 page hpage
      exact hlist _ _ (Follows · _ _) hfollows fun _ => hfollows.cons id
  | serve i limit =>
    obtain ⟨hlimit, hs⟩ := Option.ite_none_right_eq_some.mp hs
    cases hs
    have hold {r} (hr : r ∈ s.requests.modify i fun r => { r with
        answer := some (huddlePage (s.lists r.workspaceId r.query) r.before limit) }) :
        ∃ r' ∈ s.requests, r = r' ∨ r = { r' with
          answer := some (huddlePage (s.lists r'.workspaceId r'.query) r'.before limit) } := by
      obtain ⟨j, hj⟩ := mem_iff_getElem?.mp hr
      rw [getElem?_modify] at hj
      obtain ⟨r', hr', rfl⟩ := Option.map_eq_some_iff.mp hj
      refine ⟨r', mem_of_getElem? hr', ?_⟩
      split
      · exact .inr rfl
      · exact .inl rfl
    refine { h with
      sound := { h.sound with }
      requests := fun r hr => ?_
      wanted := fun r hr hgen => ?_
      one := ?_ }
    · obtain ⟨r', hr', rfl | rfl⟩ := hold hr
      · exact h.requests r hr'
      · refine ⟨(h.requests r' hr').1, (h.requests r' hr').2.1, fun page hpage => ?_⟩
        cases hpage
        exact huddlePage_follows hlimit (h.requests r' hr').2.1
    · obtain ⟨r', hr', rfl | rfl⟩ := hold hr
      · exact h.wanted r hr' hgen
      · exact h.wanted r' hr' hgen
    · refine pairwise_iff_getElem.mpr fun j k hj hk hlt => ?_
      rw [length_modify] at hj hk
      rw [getElem_modify, getElem_modify]
      have hone := pairwise_iff_getElem.mp h.one j k hj hk hlt
      split <;> split <;> exact hone
  | deliver i =>
    obtain ⟨r, hr, hs⟩ := Option.bind_eq_some_iff.mp hs
    obtain ⟨page, hpage, hs⟩ := Option.bind_eq_some_iff.mp hs
    cases hs
    split
    · next hgen =>
      have hmem := mem_of_getElem? hr
      exact (h.rest i).receive (h.wanted r hmem hgen) (h.taken hr hgen)
        ((h.requests r hmem).2.2 page hpage)
    · exact h.rest i
  | fail i =>
    obtain ⟨r, hr, hs⟩ := Option.bind_eq_some_iff.mp hs
    cases hs
    split
    · next hgen => exact (h.rest i).lose (h.taken hr hgen)
    · exact h.rest i

end RecentHuddles

/-- **The list of past huddles has no hole and no stale row** in runs that ask for no further page
while a first page is on its way. -/
theorem recent_huddles_contiguous {s : RecentHuddles}
    (h : recentHuddles.ReachableBy RecentHuddles.Heeds s) : s.Sound := by
  have hstart : ∀ s, recentHuddles.init s → s.Kept := by
    rintro _ ⟨lists, hlists, rfl⟩
    exact ⟨⟨nofun, nofun, nofun⟩, hlists, nofun, nofun, .nil, fun _ => rfl⟩
  exact (h.invariant hstart fun _ _ _ => RecentHuddles.kept_step).sound

namespace RecentHuddles

/-- All huddles, of nobody and of no room in particular. -/
def everyHuddle : RecentHuddlesQuery := ⟨"all", none, none⟩

/-- The screen at its start, where the server has five huddles. -/
def five : RecentHuddles :=
  ⟨none, none, .idle, [], none, false, none, 0, [], fun _ _ => [5, 4, 3, 2, 1], [], false⟩

theorem init_five : recentHuddles.init five := ⟨_, fun _ _ => by decide, rfl⟩

end RecentHuddles

open RecentHuddles

/-- Two pages of a list of five. -/
theorem recent_huddles_contiguous_two : ∃ s, recentHuddles.ReachableBy Heeds s ∧ s.Sound ∧
    s.items = [5, 4, 3, 2] ∧ s.nextCursor = some 2 := by
  have hrun : (recentHuddles.runBy Heeds five [.load 1 everyHuddle, .serve 0 2, .deliver 0,
      .loadMore, .serve 0 2, .deliver 0]).any (fun s =>
        s.items = [5, 4, 3, 2] ∧ s.nextCursor = some 2) = true := by decide
  obtain ⟨s, hs, htest⟩ := exists_of_runBy hrun init_five
  exact ⟨s, hs, recent_huddles_contiguous hs, of_decide_eq_true htest⟩

/-- A first page that fails leaves no row and no cursor; and a page after an old cursor is put
behind a new first page. -/
theorem huddle_rows_missing :
    (∃ s, recentHuddles.Reachable s ∧ s.status = .ready ∧ s.nextCursor = none ∧ s.items = [] ∧
      s.lists 1 everyHuddle = [5, 4, 3, 2, 1]) ∧
    ∃ s, recentHuddles.Reachable s ∧ s.status = .ready ∧ s.items = [5, 4, 1] ∧
      s.lists 1 everyHuddle = [5, 4, 3, 2, 1] := by
  have hfail : (recentHuddles.run five [.load 1 everyHuddle, .fail 0]).any (fun s =>
      s.status = .ready ∧ s.nextCursor = none ∧ s.items = [] ∧
        s.lists 1 everyHuddle = [5, 4, 3, 2, 1]) = true := by decide
  have hhole : (recentHuddles.run five [.load 1 everyHuddle, .serve 0 2, .deliver 0, .loadMore,
      .serve 0 2, .deliver 0, .load 1 everyHuddle, .loadMore, .serve 0 2, .deliver 0, .serve 0 2,
      .deliver 0]).any (fun s => s.status = .ready ∧ s.items = [5, 4, 1] ∧
        s.lists 1 everyHuddle = [5, 4, 3, 2, 1]) = true := by decide
  obtain ⟨s, hs, hfail⟩ := exists_of_run hfail init_five
  obtain ⟨t, ht, hhole⟩ := exists_of_run hhole init_five
  exact ⟨⟨s, hs, of_decide_eq_true hfail⟩, t, ht, of_decide_eq_true hhole⟩

end Hibari
