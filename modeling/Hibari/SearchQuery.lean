import Hibari.BodyFormat
import Hibari.RoomArchive

/-!
# The search box and its filters

What is searched for is one value with two views (`search-query.ts`): a string in the search box,
which is read as modifiers – `in:`, `from:`, `before:`, `after:`, `on:` – and words, and a dialogue
with the filters. A value that the dialogue has edited is written into the box, and read from there.

The box is split at white space that is not within double quotes, and a name with white space is
written in such quotes. There is no way to write a quote itself. A name that has one therefore
changes where the box is split, and a name that begins with one loses it. Where neither happens
(`SearchQuery.Legible`), what is written is read as it was, except that a name is looked up in the
table, where the first room or member of that name is found (`parse_format_iff`).
-/

namespace Hibari

open List Option Bool

open BodyFormat (Text ascii isSpace)

/-- A room in the table of names. -/
structure SearchRoom where
  id : Ulid
  kind : RoomKind
  name : Text
  deriving DecidableEq

/-- A member in the table of names. -/
structure SearchMember where
  id : Ulid
  name : Text
  deriving DecidableEq

/-- The table of names: what the screen has of rooms and members. -/
structure SearchLookup where
  rooms : List SearchRoom
  members : List SearchMember

/-- **What is searched for.** -/
structure SearchQuery where
  sender : Option SearchMember
  room : Option SearchRoom
  after : Option Text
  before : Option Text
  text : Text
  deriving DecidableEq

namespace SearchQuery

def doubleQuote : UInt16 := 0x22

def hash : UInt16 := 0x23

def at_ : UInt16 := 0x40

def space : UInt16 := 0x20

inductive Modifier
  | in_
  | from_
  | before
  | after
  | on
  deriving DecidableEq

namespace Modifier

/-- What a modifier begins with. -/
def key : Modifier → Text
  | in_ => ascii "in:"
  | from_ => ascii "from:"
  | before => ascii "before:"
  | after => ascii "after:"
  | on => ascii "on:"

end Modifier

variable {quoted : Bool} {name v : Text} {m : Modifier} {sign : UInt16}

/-- The modifiers, in the order in which they are looked for. -/
def modifiers : List Modifier := [.in_, .from_, .before, .after, .on]

/-- Lower case of a letter of ASCII. Of the letters of the modifiers no other unit is an upper
case. -/
def lowerUnit (c : UInt16) : UInt16 := if 0x41 ≤ c ∧ c ≤ 0x5a then c + 0x20 else c

/-- The modifier that a token begins with. -/
def modifierOf (token : Text) : Option Modifier :=
  modifiers.find? fun m => m.key.isPrefixOf (token.map lowerUnit)

def isDigit (c : UInt16) : Bool := decide (0x30 ≤ c ∧ c ≤ 0x39)

/-- Four digits, two and two, with hyphens in between (`DATE_PATTERN`). -/
def isDate : Text → Bool
  | [y, y', y'', y''', h, m, m', h', d, d'] =>
    [y, y', y'', y''', m, m', d, d'].all isDigit && decide (h = 0x2d) && decide (h' = 0x2d)
  | _ => false

/-- Words, with spaces between them. -/
def join (tokens : List Text) : Text := List.intercalate [space] tokens

/-! ## Tokens -/

/-- A token, unless there is none. -/
def flush (current : Text) : List Text := if current = [] then [] else [current]

/-- The tokens of what is left of a string. -/
def splitFrom (quoted : Bool) (current : Text) : Text → List Text
  | [] => flush current
  | c :: rest =>
    if c = doubleQuote then splitFrom (!quoted) (current ++ [c]) rest
    else if !quoted && isSpace c then flush current ++ splitFrom quoted [] rest
    else splitFrom quoted (current ++ [c]) rest

/-- The tokens of a string. White space within double quotes does not separate them. -/
def splitTokens (input : Text) : List Text := splitFrom false [] input

/-- A value in double quotes if it has white space in it. -/
def quote (value : Text) : Text :=
  if value.any isSpace then doubleQuote :: (value ++ [doubleQuote]) else value

/-- A value without a quote at its end. -/
def dropQuote (value : Text) : Text :=
  if value.getLast? = some doubleQuote then value.dropLast else value

/-- A value without its quotes, if it begins with one. -/
def unquote (value : Text) : Text :=
  match value with
  | [] => []
  | c :: rest => if c = doubleQuote then dropQuote rest else value

/-- A value without a sign before it. -/
def dropSign (signs : List UInt16) (value : Text) : Text :=
  match value with
  | [] => []
  | c :: rest => if c ∈ signs then rest else value

/-! ## Reading -/

/-- The query with a modifier, if the value of it is known. -/
def applyModifier (lookup : SearchLookup) (query : SearchQuery) (m : Modifier) (value : Text) :
    Option SearchQuery :=
  if value = [] then none
  else
    match m with
    | .in_ =>
      let name := unquote (dropSign [hash, at_] value)
      (lookup.rooms.find? fun r => decide (r.name = name)).map fun r =>
        { query with room := some r }
    | .from_ =>
      let name := unquote (dropSign [at_] value)
      (lookup.members.find? fun m => decide (m.name = name)).map fun m =>
        { query with sender := some m }
    | .on =>
      if isDate value then some { query with after := some value, before := some value } else none
    | .after => if isDate value then some { query with after := some value } else none
    | .before => if isDate value then some { query with before := some value } else none

/-- The query with a token, if it is a modifier. -/
def applyToken (lookup : SearchLookup) (query : SearchQuery) (token : Text) : Option SearchQuery :=
  (modifierOf token).bind fun m =>
    applyModifier lookup query m (unquote (token.drop m.key.length))

/-- Tokens are read one by one. Those that are no modifiers, or have unknown values, are left. -/
def readTokens (lookup : SearchLookup) : SearchQuery → List Text → SearchQuery × List Text
  | query, [] => (query, [])
  | query, token :: tokens =>
    match applyToken lookup query token with
    | some query => readTokens lookup query tokens
    | none =>
      let (query, rest) := readTokens lookup query tokens
      (query, token :: rest)

def empty : SearchQuery := ⟨none, none, none, none, []⟩

/-- **The box as a query.** -/
def parseSearchQuery (input : Text) (lookup : SearchLookup) : SearchQuery :=
  let (query, rest) := readTokens lookup empty (splitTokens input)
  { query with text := join rest }

/-! ## Writing -/

def roomToken (room : SearchRoom) : Text :=
  (if room.kind = .roomDM then at_ else hash) :: room.name

/-- How the dates are written. -/
def dateTokens (query : SearchQuery) : List Text :=
  match query.after, query.before with
  | some after, some before =>
    if after = before then [Modifier.on.key ++ after]
    else [Modifier.after.key ++ after, Modifier.before.key ++ before]
  | some after, none => [Modifier.after.key ++ after]
  | none, some before => [Modifier.before.key ++ before]
  | none, none => []

/-- How the filters are written. -/
def filterTokens (query : SearchQuery) : List Text :=
  (query.room.toList.map fun r => Modifier.in_.key ++ quote (roomToken r)) ++
    (query.sender.toList.map fun m => Modifier.from_.key ++ quote (at_ :: m.name)) ++
      query.dateTokens

/-- **The query as the box.** -/
def formatSearchQuery (query : SearchQuery) : Text :=
  join (query.filterTokens ++ if query.text = [] then [] else [query.text])

/-! ## Tokens that are kept

A token is cut at white space outside of quotes, so what it is does not depend on what comes before;
and what comes after begins outside of quotes if its own quotes are closed. -/

/-- Whether a text has white space within quotes only, where `quoted` says if it begins within. -/
def whole (quoted : Bool) : Text → Bool
  | [] => true
  | c :: rest =>
    if c = doubleQuote then whole (!quoted) rest else (quoted || !isSpace c) && whole quoted rest

/-- Whether the quotes of a text are open at its end. -/
def opened (quoted : Bool) (t : Text) : Bool :=
  t.foldl (fun quoted c => if c = doubleQuote then !quoted else quoted) quoted

theorem opened_cons (quoted : Bool) (c : UInt16) (t : Text) :
    opened quoted (c :: t) = opened (if c = doubleQuote then !quoted else quoted) t := rfl

theorem opened_append (quoted : Bool) (t u : Text) :
    opened quoted (t ++ u) = opened (opened quoted t) u := foldl_append

theorem whole_append (quoted : Bool) (t u : Text) :
    whole quoted (t ++ u) = (whole quoted t && whole (opened quoted t) u) := by
  induction t generalizing quoted with
  | nil => rfl
  | cons c _ ih =>
    rw [cons_append, whole, whole, opened_cons]
    by_cases hc : c = doubleQuote
    · rw [if_pos hc, if_pos hc, if_pos hc, ih]
    · rw [if_neg hc, if_neg hc, if_neg hc, ih, Bool.and_assoc]

/-- A text that is not cut is part of the token. -/
theorem splitFrom_append {t : Text} (h : whole quoted t = true) (current u : Text) :
    splitFrom quoted current (t ++ u) = splitFrom (opened quoted t) (current ++ t) u := by
  induction t generalizing quoted current with
  | nil => rw [nil_append, append_nil]; rfl
  | cons c _ ih =>
    rw [whole] at h
    rw [cons_append, splitFrom, opened_cons]
    by_cases hc : c = doubleQuote
    · rw [if_pos hc] at h ⊢
      rw [if_pos hc, ih h, append_assoc, singleton_append]
    · rw [if_neg hc] at h ⊢
      obtain ⟨hspace, hrest⟩ := (and_eq_true _ _).mp h
      have hkeep : (!quoted && isSpace c) = false := by
        cases quoted
        · simpa using hspace
        · rfl
      rw [if_neg hc, if_neg (eq_false_iff.mp hkeep), ih hrest, append_assoc, singleton_append]

/-- A token: something that is not cut. -/
def IsToken (t : Text) : Prop := t ≠ [] ∧ whole false t = true

/-- **Tokens in a row**: the quotes of each are closed, except of the last one. -/
structure Tokens (ts : List Text) : Prop where
  isToken : ∀ t ∈ ts, IsToken t
  closed : ts.Pairwise fun t _ => opened false t = false

theorem Tokens.sublist {ts us : List Text} (h : Tokens us) (hs : ts.Sublist us) : Tokens ts :=
  ⟨fun t ht => h.isToken t (hs.subset ht), h.closed.sublist hs⟩

theorem flush_of_ne {t : Text} (h : t ≠ []) : flush t = [t] := if_neg h

/-- **Tokens that are joined are split as they were.** -/
theorem splitTokens_join {ts : List Text} (h : Tokens ts) : splitTokens (join ts) = ts := by
  induction ts with
  | nil => rfl
  | cons t ts ih =>
    obtain ⟨hne, hwhole⟩ := h.isToken t (.head _)
    have htail : Tokens ts := h.sublist (sublist_cons_self t ts)
    cases ts with
    | nil =>
      show splitFrom false [] (join [t]) = [t]
      have hjoin : join [t] = t ++ [] := by
        rw [join, intercalate_singleton, append_nil]
      rw [hjoin, splitFrom_append hwhole]
      exact flush_of_ne hne
    | cons u ts =>
      have hclosed : opened false t = false :=
        (pairwise_cons.mp h.closed).1 u (.head _)
      have hjoin : join (t :: u :: ts) = t ++ space :: join (u :: ts) := by
        rw [join, intercalate_cons_cons, append_assoc]
        rfl
      show splitFrom false [] (join (t :: u :: ts)) = t :: u :: ts
      rw [hjoin, splitFrom_append hwhole, hclosed]
      show flush t ++ splitFrom false [] (join (u :: ts)) = _
      rw [flush_of_ne hne]
      exact congrArg (t :: ·) (ih htail)

/-- What is split off is tokens. -/
theorem tokens_splitFrom {current : Text} (s : Text)
    (hwhole : whole false current = true) (hopened : opened false current = quoted) :
    Tokens (splitFrom quoted current s) := by
  induction s generalizing quoted current with
  | nil =>
    unfold splitFrom flush
    split
    · exact ⟨fun t ht => absurd ht not_mem_nil, List.Pairwise.nil⟩
    · next hne =>
      refine ⟨fun t ht => ?_, pairwise_singleton _ _⟩
      rw [mem_singleton.mp ht]
      exact ⟨hne, hwhole⟩
  | cons c s ih =>
    have hopened' : opened false
      (current ++ [c]) = if c = doubleQuote then !quoted else quoted := by
      rw [opened_append, hopened]
      rfl
    rw [splitFrom]
    by_cases hc : c = doubleQuote
    · rw [if_pos hc]
      refine ih ?_ (hopened'.trans (if_pos hc))
      rw [whole_append, hwhole, whole, if_pos hc]
      rfl
    · rw [if_neg hc]
      split
      · next hcut =>
        obtain ⟨hquoted, -⟩ := (and_eq_true _ _).mp hcut
        obtain rfl : quoted = false := by simpa using hquoted
        have htail : Tokens (splitFrom false [] s) := ih rfl rfl
        unfold flush
        split
        · exact htail
        · next hne =>
          refine ⟨fun t ht => ?_, pairwise_cons.mpr ⟨fun _ _ => hopened, htail.closed⟩⟩
          rcases mem_cons.mp ht with rfl | ht
          · exact ⟨hne, hwhole⟩
          · exact htail.isToken t ht
      · next hkeep =>
        refine ih ?_ (hopened'.trans (if_neg hc))
        rw [whole_append, hwhole, hopened, whole, if_neg hc]
        cases quoted with
        | true => rfl
        | false => simpa [whole] using hkeep

theorem tokens_splitTokens (s : Text) : Tokens (splitTokens s) := tokens_splitFrom s rfl rfl

theorem join_eq_nil {ts : List Text} (h : Tokens ts) : join ts = [] ↔ ts = [] := by
  constructor
  · intro hjoin
    rw [← splitTokens_join h, hjoin]
    rfl
  · rintro rfl
    rfl

/-! ## What is read -/

variable {lookup : SearchLookup} {q q' : SearchQuery} {t : Text} {ts us : List Text}

/-- Whether a value is known does not depend on what was read before. -/
theorem isSome_applyModifier (lookup : SearchLookup) (q q' : SearchQuery) (m : Modifier)
    (value : Text) :
    (applyModifier lookup q m value).isSome = (applyModifier lookup q' m value).isSome := by
  unfold applyModifier
  by_cases hv : value = []
  · rw [if_pos hv, if_pos hv]
  · rw [if_neg hv, if_neg hv]
    cases m with
    | in_ | from_ => simp only [isSome_map]
    | _ => simp only; split <;> rfl

theorem isSome_applyToken (lookup : SearchLookup) (q q' : SearchQuery) (t : Text) :
    (applyToken lookup q t).isSome = (applyToken lookup q' t).isSome := by
  unfold applyToken
  cases modifierOf t with
  | none => rfl
  | some m => exact isSome_applyModifier lookup q q' m _

/-- A token that is left as it is. -/
def unread (lookup : SearchLookup) (t : Text) : Bool := (applyToken lookup empty t).isNone

theorem applyToken_of_unread (h : unread lookup t = true) (q : SearchQuery) :
    applyToken lookup q t = none := by
  have hsome := isSome_applyToken lookup q empty t
  unfold unread at h
  rw [← not_isSome, ← hsome, not_eq_true'] at h
  exact isSome_eq_false_iff.mp h |> isNone_iff_eq_none.mp

/-- **What is left is the tokens that are no modifiers.** -/
theorem readTokens_snd (lookup : SearchLookup) (q : SearchQuery) (ts : List Text) :
    (readTokens lookup q ts).2 = ts.filter (unread lookup) := by
  induction ts generalizing q with
  | nil => rfl
  | cons t _ ih =>
    rw [readTokens, filter_cons]
    by_cases hunread : unread lookup t = true
    · rw [applyToken_of_unread hunread, if_pos hunread]
      exact congrArg (t :: ·) (ih q)
    · have hsome : (applyToken lookup q t).isSome = true := by
        rw [isSome_applyToken lookup q empty]
        unfold unread at hunread
        rwa [← not_isSome, not_eq_true', not_eq_false] at hunread
      obtain ⟨q', hq'⟩ := isSome_iff_exists.mp hsome
      rw [hq', if_neg hunread]
      exact ih q'

theorem readTokens_append {rest : List Text} (h : readTokens lookup q ts = (q', rest)) :
    readTokens lookup q (ts ++ us)
      = ((readTokens lookup q' us).1, rest ++ (readTokens lookup q' us).2) := by
  induction ts generalizing q rest with
  | nil =>
    cases h
    rfl
  | cons t _ ih =>
    rw [cons_append, readTokens]
    rw [readTokens] at h
    cases happly : applyToken lookup q t with
    | none =>
      rw [happly] at h
      cases h
      simp only [ih rfl, cons_append]
    | some =>
      rw [happly] at h
      exact ih h

theorem readTokens_of_unread (h : ∀ t ∈ ts, unread lookup t = true) (q : SearchQuery) :
    readTokens lookup q ts = (q, ts) := by
  induction ts with
  | nil => rfl
  | cons t _ ih =>
    rw [readTokens, applyToken_of_unread (h t mem_cons_self)]
    simp only [ih fun u hu => h u (mem_cons_of_mem _ hu)]

/-- A query whose text may stand in the box: no part of it is a modifier. -/
def IsText (lookup : SearchLookup) (text : Text) : Prop :=
  ∃ ts, Tokens ts ∧ (∀ t ∈ ts, unread lookup t = true) ∧ text = join ts

theorem isText_parse (input : Text) (lookup : SearchLookup) :
    IsText lookup (parseSearchQuery input lookup).text :=
  ⟨(splitTokens input).filter (unread lookup), (tokens_splitTokens input).sublist filter_sublist,
    fun _ ht => (mem_filter.mp ht).2, congrArg join (readTokens_snd lookup empty _)⟩

/-! ## What is written -/

/-- **A name that the quotes around it do not change**: it does not begin with a quote, has white
space only after an even number of its quotes, and has an even number of them, unless it is the last
thing that is written. -/
structure LegibleName (name : Text) (last : Prop) : Prop where
  head : name.head? ≠ some doubleQuote
  whole : whole true name = true
  closed : opened false name = false ∨ last

/-- Nothing is written but names. -/
def Undated (q : SearchQuery) : Prop := q.after = none ∧ q.before = none ∧ q.text = []

/-- **A query that is legible**: its names are. -/
structure Legible (q : SearchQuery) : Prop where
  room : ∀ r ∈ q.room, LegibleName r.name (q.sender = none ∧ q.Undated)
  sender : ∀ m ∈ q.sender, LegibleName m.name q.Undated

/-- **The names are found**: the room and the member are the first of their name in the table. -/
structure Named (lookup : SearchLookup) (q : SearchQuery) : Prop where
  room : ∀ r ∈ q.room, (lookup.rooms.find? fun r' => decide (r'.name = r.name)) = some r
  sender : ∀ m ∈ q.sender, (lookup.members.find? fun m' => decide (m'.name = m.name)) = some m

/-- **A query of the dialogue**: the room and the member are in the table, dates are dates, and the
text is one that was read. -/
structure Valid (lookup : SearchLookup) (q : SearchQuery) : Prop where
  room : ∀ r ∈ q.room, r ∈ lookup.rooms
  sender : ∀ m ∈ q.sender, m ∈ lookup.members
  after : ∀ d ∈ q.after, isDate d = true
  before : ∀ d ∈ q.before, isDate d = true
  text : ∃ input, (parseSearchQuery input lookup).text = q.text

theorem opened_not (quoted : Bool) (t : Text) : opened (!quoted) t = !opened quoted t := by
  induction t generalizing quoted with
  | nil => rfl
  | cons _ _ ih =>
    rw [opened_cons, opened_cons, ← ih]
    split <;> rfl

theorem whole_of_not_any (h : v.any isSpace = false) (quoted : Bool) : whole quoted v = true := by
  induction v generalizing quoted with
  | nil => rfl
  | cons _ _ ih =>
    rw [any_cons, or_eq_false_iff] at h
    rw [whole, h.1, ih h.2, ih h.2, Bool.not_false, Bool.or_true]
    split <;> rfl

/-- **What is quoted is a token** where white space only comes after an even number of quotes. -/
theorem whole_quote (h : whole true v = true) : whole false (quote v) = true := by
  unfold quote
  split
  · rw [whole, if_pos rfl, Bool.not_false, whole_append, h, whole, if_pos rfl]
    rfl
  · next hspace => exact whole_of_not_any (eq_false_iff.mpr hspace) false

theorem opened_quote (v : Text) : opened false (quote v) = opened false v := by
  unfold quote
  split
  · have hclose : ∀ quoted, opened quoted [doubleQuote] = !quoted := fun _ => rfl
    rw [opened_cons, if_pos rfl, opened_append, opened_not, hclose, Bool.not_not]
  · rfl

/-- What is quoted is read as it was, unless it begins with a quote. -/
theorem unquote_of_head (h : v.head? ≠ some doubleQuote) : unquote v = v := by
  cases v with
  | nil => rfl
  | cons =>
    rw [unquote, if_neg]
    rintro rfl
    exact h rfl

theorem unquote_quote (h : v.head? ≠ some doubleQuote) : unquote (quote v) = v := by
  unfold quote
  split
  · rw [unquote, if_pos rfl, dropQuote, getLast?_concat, if_pos rfl, dropLast_concat]
  · exact unquote_of_head h

theorem modifierOf_key (m : Modifier) (value : Text) : modifierOf (m.key ++ value) = some m := by
  cases m <;> rfl

theorem applyToken_key (m : Modifier) (value : Text) (q : SearchQuery) :
    applyToken lookup q (m.key ++ value) = applyModifier lookup q m (unquote value) := by
  unfold applyToken
  rw [modifierOf_key, bind_some, drop_left]

theorem whole_key (m : Modifier) (value : Text) : whole false
    (m.key ++ value) = whole false value := by
  rw [whole_append]
  cases m <;> rfl

theorem opened_key (m : Modifier) (value : Text) :
    opened false (m.key ++ value) = opened false value := by
  rw [opened_append]
  cases m <;> rfl

theorem key_append_ne_nil (m : Modifier) (value : Text) : m.key ++ value ≠ [] := by
  cases m <;> exact cons_ne_nil _ _

/-! ## Names and dates -/

/-- What the tokens of the filters say. -/
theorem isToken_name (hsign : sign ∈ [hash, at_]) (h : whole true name = true) :
    IsToken (m.key ++ quote (sign :: name)) ∧
      opened false (m.key ++ quote (sign :: name)) = opened false name := by
  have hquote : sign ≠ doubleQuote := by
    rintro rfl
    exact nomatch hsign
  have hwhole : whole true (sign :: name) = true := by
    rw [whole, if_neg hquote, h]
    rfl
  refine ⟨⟨key_append_ne_nil m _, (whole_key m _).trans (whole_quote hwhole)⟩, ?_⟩
  rw [opened_key, opened_quote, opened_cons, if_neg hquote]

theorem unquote_quote_name (hsign : sign ∈ [hash, at_]) :
    unquote (quote (sign :: name)) = sign :: name := by
  refine unquote_quote fun hhead => ?_
  rw [head?_cons, some_inj] at hhead
  rw [hhead] at hsign
  exact nomatch hsign

/-- **A room is looked up by its name.** -/
theorem applyToken_room {r : SearchRoom} (h : r.name.head? ≠ some doubleQuote) :
    applyToken lookup q (Modifier.in_.key ++ quote (roomToken r))
      = (lookup.rooms.find? fun r' => decide (r'.name = r.name)).map fun r' =>
        { q with room := some r' } := by
  have hsign : (if r.kind = .roomDM then at_ else hash) ∈ [hash, at_] := by
    split <;> decide
  rw [applyToken_key, roomToken, unquote_quote_name hsign, applyModifier, if_neg (cons_ne_nil _ _)]
  show (lookup.rooms.find? fun r' => decide (r'.name = unquote (dropSign [hash, at_] _))).map _ = _
  rw [dropSign, if_pos hsign, unquote_of_head h]

/-- **A member is looked up by its name.** -/
theorem applyToken_member {m : SearchMember} (h : m.name.head? ≠ some doubleQuote) :
    applyToken lookup q (Modifier.from_.key ++ quote (at_ :: m.name))
      = (lookup.members.find? fun m' => decide (m'.name = m.name)).map fun m' =>
        { q with sender := some m' } := by
  rw [applyToken_key, unquote_quote_name (by decide), applyModifier, if_neg (cons_ne_nil _ _)]
  show (lookup.members.find? fun m' => decide (m'.name = unquote (dropSign [at_] _))).map _ = _
  rw [dropSign, if_pos mem_cons_self, unquote_of_head h]

variable (h : isDate v = true)
include h

/-- A unit of a date is a digit or a hyphen. -/
theorem digit_or_hyphen_of_isDate : ∀ c ∈ v, isDigit c = true ∨ c = 0x2d := by
  unfold isDate at h
  split at h
  · simp only [all_cons, all_nil, Bool.and_true, Bool.and_eq_true,
      decide_eq_true_eq] at h
    simp [h]
  · cases h

/-- A date has no quotes, and no white space. -/
theorem plain_of_isDate : ∀ c ∈ v, c ≠ doubleQuote ∧ isSpace c = false := by
  intro c hc
  rcases digit_or_hyphen_of_isDate h c hc with hdigit | rfl
  · unfold isDigit at hdigit
    rw [decide_eq_true_eq, UInt16.le_iff_toNat_le, UInt16.le_iff_toNat_le] at hdigit
    obtain ⟨hlow, hhigh⟩ : 48 ≤ c.toNat ∧ c.toNat ≤ 57 := hdigit
    have hc : c = UInt16.ofNat c.toNat := UInt16.ofNat_toNat.symm
    rw [hc]
    generalize c.toNat = n at hlow hhigh
    interval_cases n <;> decide
  · decide

omit h

theorem whole_of_plain (h : ∀ c ∈ v, c ≠ doubleQuote ∧ isSpace c = false) :
    whole false v = true ∧ opened false v = false := by
  induction v with
  | nil => exact ⟨rfl, rfl⟩
  | cons c _ ih =>
    obtain ⟨hquote, hspace⟩ := h c (.head _)
    rw [whole, if_neg hquote, hspace, opened_cons, if_neg hquote]
    exact ih fun c hc => h c (.tail _ hc)

include h

theorem isToken_date : IsToken (m.key ++ v) ∧ opened false (m.key ++ v) = false := by
  obtain ⟨hwhole, hopened⟩ := whole_of_plain (plain_of_isDate h)
  exact ⟨⟨key_append_ne_nil m v, (whole_key m v).trans hwhole⟩, (opened_key m v).trans hopened⟩

/-- **A date is read as it is.** -/
theorem applyToken_date :
    applyToken lookup q (m.key ++ v) = applyModifier lookup q m v := by
  rw [applyToken_key, unquote_of_head]
  intro hhead
  exact (plain_of_isDate h doubleQuote (mem_of_mem_head? hhead)).1 rfl

theorem ne_nil_of_isDate : v ≠ [] := by
  rintro rfl
  cases h

/-! ## The round trip -/

omit h

/-- The dates are read as they were written. -/
theorem readTokens_dateTokens (hafter : ∀ d ∈ q.after, isDate d = true)
    (hbefore : ∀ d ∈ q.before, isDate d = true) (q' : SearchQuery) (hnone : q'.after = none)
    (hnone' : q'.before = none) :
    readTokens lookup q' q.dateTokens = ({ q' with after := q.after, before := q.before }, []) := by
  have hon : ∀ d, isDate d = true → ∀ q' : SearchQuery,
      applyToken lookup q' (Modifier.on.key ++ d)
        = some { q' with after := some d, before := some d } := by
    intro d hd q'
    rw [applyToken_date hd, applyModifier, if_neg (ne_nil_of_isDate hd)]
    exact if_pos hd
  have hAfter : ∀ d, isDate d = true → ∀ q' : SearchQuery,
      applyToken lookup q' (Modifier.after.key ++ d) = some { q' with after := some d } := by
    intro d hd q'
    rw [applyToken_date hd, applyModifier, if_neg (ne_nil_of_isDate hd)]
    exact if_pos hd
  have hBefore : ∀ d, isDate d = true → ∀ q' : SearchQuery,
      applyToken lookup q' (Modifier.before.key ++ d) = some { q' with before := some d } := by
    intro d hd q'
    rw [applyToken_date hd, applyModifier, if_neg (ne_nil_of_isDate hd)]
    exact if_pos hd
  obtain ⟨sender, room, after, before, text⟩ := q'
  obtain rfl : after = none := hnone
  obtain rfl : before = none := hnone'
  unfold dateTokens
  cases ha : q.after with
  | none =>
    cases hb : q.before with
    | none => rfl
    | some d' =>
      simp only [readTokens, hBefore d' (hbefore d' hb)]
  | some d =>
    cases hb : q.before with
    | none =>
      simp only [readTokens, hAfter d (hafter d ha)]
    | some d' =>
      simp only
      split
      · next heq =>
        rw [readTokens, hon d (hafter d ha)]
        simp only [readTokens, heq]
      · simp only [readTokens, hAfter d (hafter d ha), hBefore d' (hbefore d' hb)]

theorem join_cons (t : Text) {ts : List Text} (h : ts ≠ []) :
    join (t :: ts) = t ++ space :: join ts := by
  obtain ⟨u, us, rfl⟩ := exists_cons_of_ne_nil h
  rw [join, intercalate_cons_cons, append_assoc]
  rfl

/-- Words that are joined are joined with the others. -/
theorem join_concat_join (ts : List Text) {us : List Text} (h : us ≠ []) :
    join (ts ++ [join us]) = join (ts ++ us) := by
  induction ts with
  | nil => exact intercalate_singleton
  | cons t ts ih =>
    have hconcat : ts ++ [join us] ≠ [] := by simp
    have happend : ts ++ us ≠ [] := fun hnil => h (append_eq_nil_iff.mp hnil).2
    rw [cons_append, cons_append, join_cons t hconcat, join_cons t happend, ih]

theorem Tokens.append (ht : Tokens ts) (hu : Tokens us)
    (h : ∀ t ∈ ts, opened false t = false ∨ us = []) : Tokens (ts ++ us) where
  isToken t hmem := (mem_append.mp hmem).elim (ht.isToken t) (hu.isToken t)
  closed := pairwise_append.mpr ⟨ht.closed, hu.closed, fun t hmem _ hmem' =>
    (h t hmem).resolve_right fun hnil => not_mem_nil (hnil ▸ hmem')⟩

theorem tokens_singleton (h : IsToken t) : Tokens [t] where
  isToken _ hu := mem_singleton.mp hu ▸ h
  closed := pairwise_singleton _ _

theorem dateTokens_of_undated (h : q.Undated) : q.dateTokens = [] := by
  unfold dateTokens
  rw [h.1, h.2.1]

theorem mem_dateTokens (lookup : SearchLookup) (hafter : ∀ d ∈ q.after, isDate d = true)
    (hbefore : ∀ d ∈ q.before, isDate d = true) (ht : t ∈ q.dateTokens) :
    ∃ (m : Modifier) (d : Text), t = m.key ++ d ∧ isDate d = true ∧
      ∃ q', applyToken lookup empty t = some q' := by
  have hdate : ∀ (m : Modifier) (d : Text), isDate d = true → m = .on ∨ m = .after ∨ m = .before →
      ∃ q', applyToken lookup empty (m.key ++ d) = some q' := by
    intro m d hd hm
    rw [applyToken_date hd]
    unfold applyModifier
    rw [if_neg (ne_nil_of_isDate hd)]
    rcases hm with rfl | rfl | rfl <;> exact ⟨_, if_pos hd⟩
  unfold dateTokens at ht
  split at ht
  · next d d' hd hd' =>
    split at ht
    · obtain rfl := mem_singleton.mp ht
      exact ⟨.on, d, rfl, hafter d hd, hdate .on d (hafter d hd) (.inl rfl)⟩
    · rcases mem_cons.mp ht with rfl | ht
      · exact ⟨.after, d, rfl, hafter d hd, hdate .after d (hafter d hd) (.inr (.inl rfl))⟩
      · obtain rfl := mem_singleton.mp ht
        exact ⟨.before, d', rfl, hbefore d' hd',
          hdate .before d' (hbefore d' hd') (.inr (.inr rfl))⟩
  · next d hd hnone =>
    obtain rfl := mem_singleton.mp ht
    exact ⟨.after, d, rfl, hafter d hd, hdate .after d (hafter d hd) (.inr (.inl rfl))⟩
  · next d hnone hd =>
    obtain rfl := mem_singleton.mp ht
    exact ⟨.before, d, rfl, hbefore d hd, hdate .before d (hbefore d hd) (.inr (.inr rfl))⟩
  · cases ht

theorem tokens_dateTokens (hafter : ∀ d ∈ q.after, isDate d = true)
    (hbefore : ∀ d ∈ q.before, isDate d = true) :
    Tokens q.dateTokens ∧ ∀ t ∈ q.dateTokens, opened false t = false := by
  have hall : ∀ t ∈ q.dateTokens, IsToken t ∧ opened false t = false := by
    intro t ht
    obtain ⟨m, d, rfl, hd, -⟩ := mem_dateTokens ⟨[], []⟩ hafter hbefore ht
    exact isToken_date hd
  refine ⟨⟨fun t ht => (hall t ht).1, pairwise_of_forall_mem_list fun t ht _ _ =>
    (hall t ht).2⟩,
    fun t ht => (hall t ht).2⟩

/-- **What a legible query is written as is tokens.** -/
theorem tokens_filterTokens (hvalid : Valid lookup q) (h : q.Legible) (hts : Tokens ts)
    (htext : q.text = join ts) : Tokens (q.filterTokens ++ ts) := by
  obtain ⟨hdates, hclosed⟩ := tokens_dateTokens hvalid.after hvalid.before
  have hundated : q.Undated → ts = [] := fun hu => (join_eq_nil hts).mp (htext ▸ hu.2.2)
  have hrest : Tokens (q.dateTokens ++ ts) := hdates.append hts fun t ht => .inl (hclosed t ht)
  have hsender : Tokens
    ((q.sender.toList.map fun m => Modifier.from_.key ++ quote (at_ :: m.name)) ++
      (q.dateTokens ++ ts)) := by
    cases hm : q.sender with
    | none => exact hrest
    | some m =>
      have hname := h.sender m hm
      obtain ⟨htoken, hopened⟩ := isToken_name (m := .from_) (show at_ ∈ [hash, at_] by decide)
        hname.whole
      refine (tokens_singleton htoken).append hrest fun t ht => ?_
      rw [mem_singleton.mp ht, hopened]
      exact hname.closed.imp_right fun hu => by rw [dateTokens_of_undated hu, hundated hu]; rfl
  have hassoc : q.filterTokens ++ ts
      = (q.room.toList.map fun r => Modifier.in_.key ++ quote (roomToken r)) ++
        ((q.sender.toList.map fun m => Modifier.from_.key ++ quote (at_ :: m.name)) ++
          (q.dateTokens ++ ts)) := by
    rw [filterTokens, append_assoc, append_assoc]
  rw [hassoc]
  cases hr : q.room with
  | none => exact hsender
  | some r =>
    have hname := h.room r hr
    have hsign : (if r.kind = .roomDM then at_ else hash) ∈ [hash, at_] := by
      split <;> decide
    obtain ⟨htoken, hopened⟩ := isToken_name (m := .in_) hsign hname.whole
    refine (tokens_singleton htoken).append hsender fun t ht => ?_
    rw [mem_singleton.mp ht, hopened]
    refine hname.closed.imp_right fun hu => ?_
    rw [hu.1, dateTokens_of_undated hu.2, hundated hu.2]
    rfl

/-- **What a legible query is read as**: the room and the member are the first of their name. -/
theorem parse_format_of_legible (hvalid : Valid lookup q) (h : q.Legible) :
    parseSearchQuery q.formatSearchQuery lookup = { q with
          room := q.room.bind fun r => lookup.rooms.find? fun r' => decide (r'.name = r.name)
          sender := q.sender.bind fun m =>
            lookup.members.find? fun m' => decide (m'.name = m.name) } := by
  obtain ⟨ts, hts, hunread, htext⟩ : IsText lookup q.text := by
    obtain ⟨input, heq⟩ := hvalid.text
    exact heq ▸ isText_parse input lookup
  have hformat : q.formatSearchQuery = join (q.filterTokens ++ ts) := by
    unfold formatSearchQuery
    split
    · next hnil =>
      rw [(join_eq_nil hts).mp (htext ▸ hnil)]
    · next hne =>
      rw [htext, join_concat_join _ fun hnil => hne (by rw [htext, hnil]; rfl)]
  have hsplit : splitTokens q.formatSearchQuery = q.filterTokens ++ ts := by
    rw [hformat, splitTokens_join (tokens_filterTokens hvalid h hts htext)]
  have hroom : ∀ q' : SearchQuery, q'.room = none → (readTokens lookup q'
      (q.room.toList.map fun r => Modifier.in_.key ++ quote (roomToken r))) = ({ q' with
          room := q.room.bind fun r => lookup.rooms.find? fun r' => decide (r'.name = r.name) },
          []) := by
    intro q' hnone
    obtain ⟨sender, room, after, before, text⟩ := q'
    obtain rfl : room = none := hnone
    cases hr : q.room with
    | none => rfl
    | some r =>
      have hsome : (lookup.rooms.find? fun r' => decide (r'.name = r.name)).isSome = true :=
        find?_isSome.mpr ⟨r, hvalid.room r hr, decide_eq_true rfl⟩
      obtain ⟨r', hr'⟩ := isSome_iff_exists.mp hsome
      show readTokens lookup _ [Modifier.in_.key ++ quote (roomToken r)] = _
      rw [readTokens, applyToken_room (h.room r hr).head, bind_some, hr']
      rfl
  have hsender : ∀ q' : SearchQuery, q'.sender = none → (readTokens lookup q'
      (q.sender.toList.map fun m => Modifier.from_.key ++ quote (at_ :: m.name))) = ({ q' with
          sender := q.sender.bind fun m =>
            lookup.members.find? fun m' => decide (m'.name = m.name) }, []) := by
    intro q' hnone
    obtain ⟨sender, room, after, before, text⟩ := q'
    obtain rfl : sender = none := hnone
    cases hm : q.sender with
    | none => rfl
    | some m =>
      have hsome : (lookup.members.find? fun m' => decide (m'.name = m.name)).isSome = true :=
        find?_isSome.mpr ⟨m, hvalid.sender m hm, decide_eq_true rfl⟩
      obtain ⟨m', hm'⟩ := isSome_iff_exists.mp hsome
      show readTokens lookup _ [Modifier.from_.key ++ quote (at_ :: m.name)] = _
      rw [readTokens, applyToken_member (h.sender m hm).head, bind_some, hm']
      rfl
  have hdates : ∀ q' : SearchQuery, q'.after = none → q'.before = none →
      readTokens lookup q' q.dateTokens = ({ q' with after := q.after, before := q.before }, []) :=
    fun q' => readTokens_dateTokens hvalid.after hvalid.before q'
  unfold parseSearchQuery
  rw [hsplit, filterTokens, append_assoc, append_assoc,
    readTokens_append (hroom empty rfl), readTokens_append (hsender _ rfl),
    readTokens_append (hdates _ rfl rfl), readTokens_of_unread hunread]
  simp only [nil_append, htext]

/-- What modifiers say: the first room and the first member of a name, and dates. -/
structure Known (lookup : SearchLookup) (q : SearchQuery) : Prop where
  room : ∀ r ∈ q.room, r ∈ lookup.rooms
  sender : ∀ m ∈ q.sender, m ∈ lookup.members
  named : Named lookup q
  after : ∀ d ∈ q.after, isDate d = true
  before : ∀ d ∈ q.before, isDate d = true

theorem known_empty (lookup : SearchLookup) : Known lookup empty where
  room r hr := absurd hr (not_mem_none r)
  sender m hm := absurd hm (not_mem_none m)
  named := ⟨fun r hr => absurd hr (not_mem_none r), fun m hm => absurd hm (not_mem_none m)⟩
  after d hd := absurd hd (not_mem_none d)
  before d hd := absurd hd (not_mem_none d)

theorem Known.applyModifier {value : Text} (h : Known lookup q)
    (hq : applyModifier lookup q m value = some q') : Known lookup q' := by
  have hdate : ∀ d ∈ some value, isDate value = true → isDate d = true := by
    intro d hd hvalue
    cases hd
    exact hvalue
  unfold SearchQuery.applyModifier at hq
  split at hq
  · cases hq
  · cases m with
    | in_ =>
      obtain ⟨r, hr, rfl⟩ := map_eq_some_iff.mp hq
      have hname : r.name = unquote (dropSign [hash, at_] value) := by
        simpa using find?_some hr
      refine ⟨fun r' hr' => ?_, h.sender, ⟨fun r' hr' => ?_, h.named.sender⟩, h.after, h.before⟩
      · cases hr'
        exact mem_of_find?_eq_some hr
      · cases hr'
        rw [hname]
        exact hr
    | from_ =>
      obtain ⟨m, hm, rfl⟩ := map_eq_some_iff.mp hq
      have hname : m.name = unquote (dropSign [at_] value) := by
        simpa using find?_some hm
      refine ⟨h.room, fun m' hm' => ?_, ⟨h.named.room, fun m' hm' => ?_⟩, h.after, h.before⟩
      · cases hm'
        exact mem_of_find?_eq_some hm
      · cases hm'
        rw [hname]
        exact hm
    | on =>
      simp only at hq
      split at hq
      · next hvalue =>
        cases hq
        exact ⟨h.room, h.sender, ⟨h.named.room, h.named.sender⟩, fun d hd => hdate d hd hvalue,
          fun d hd => hdate d hd hvalue⟩
      · cases hq
    | after =>
      simp only at hq
      split at hq
      · next hvalue =>
        cases hq
        exact ⟨h.room, h.sender, ⟨h.named.room, h.named.sender⟩, fun d hd => hdate d hd hvalue,
          h.before⟩
      · cases hq
    | before =>
      simp only at hq
      split at hq
      · next hvalue =>
        cases hq
        exact ⟨h.room, h.sender, ⟨h.named.room, h.named.sender⟩, h.after,
          fun d hd => hdate d hd hvalue⟩
      · cases hq

theorem Known.readTokens (h : Known lookup q) (ts : List Text) :
    Known lookup (readTokens lookup q ts).1 := by
  induction ts generalizing q with
  | nil => exact h
  | cons t _ ih =>
    rw [SearchQuery.readTokens]
    cases happly : applyToken lookup q t with
    | none => exact ih h
    | some =>
      obtain ⟨m, -, hm⟩ := bind_eq_some_iff.mp happly
      exact ih (h.applyModifier hm)

theorem valid_parse (input : Text) (lookup : SearchLookup) :
    Valid lookup (parseSearchQuery input lookup) ∧
      Named lookup (parseSearchQuery input lookup) := by
  have hknown := (known_empty lookup).readTokens (splitTokens input)
  exact ⟨⟨hknown.room, hknown.sender, hknown.after, hknown.before, input, rfl⟩,
    ⟨hknown.named.room, hknown.named.sender⟩⟩

/-- **The box and the dialogue are two views of a query**, if its names are legible: it is read as
it was written exactly where its room and its member are the first of their name. A query that was
read from the box is so, and if its names are legible it is read again as it is. -/
theorem parse_format_iff (lookup : SearchLookup) : (∀ q, Valid lookup q → q.Legible →
      (parseSearchQuery q.formatSearchQuery lookup = q ↔ Named lookup q)) ∧
    ∀ input, (parseSearchQuery input lookup).Legible →
      parseSearchQuery (parseSearchQuery input lookup).formatSearchQuery lookup
        = parseSearchQuery input lookup := by
  have hiff : ∀ q, Valid lookup q → q.Legible →
      (parseSearchQuery q.formatSearchQuery lookup = q ↔ Named lookup q) := by
    intro q hvalid hlegible
    rw [parse_format_of_legible hvalid hlegible]
    obtain ⟨sender, room, after, before, text⟩ := q
    constructor
    · intro heq
      obtain ⟨hsender, hroom, -⟩ := SearchQuery.mk.inj heq
      refine ⟨fun r hr => ?_, fun m hm => ?_⟩
      · obtain rfl : room = some r := hr
        exact hroom
      · obtain rfl : sender = some m := hm
        exact hsender
    · intro hnamed
      congr 1
      · cases sender with
        | none => rfl
        | some m => exact hnamed.sender m rfl
      · cases room with
        | none => rfl
        | some r => exact hnamed.room r rfl
  refine ⟨hiff, fun input hlegible => ?_⟩
  obtain ⟨hvalid, hnamed⟩ := valid_parse input lookup
  exact (hiff _ hvalid hlegible).mpr hnamed

/-- A channel and a member of a direct message with one name. -/
def namesakes : SearchLookup where
  rooms := [⟨1, .roomPublic, ascii "mei"⟩, ⟨2, .roomDM, ascii "mei"⟩]
  members := []

/-- A channel with a quote in its name. -/
def quotedChannel : SearchLookup where
  rooms := [⟨1, .roomPublic, [0x61, doubleQuote, 0x62]⟩]
  members := []

/-- What the dialogue has of the member. -/
def directMessage : SearchQuery := ⟨none, some ⟨2, .roomDM, ascii "mei"⟩, none, none, []⟩

/-- **The member of a direct message is read as the channel of that name**; and with a quote in the
name of a channel, the text of the box becomes part of the name, which is not found. -/
theorem box_forgets : (Valid namesakes directMessage ∧
      parseSearchQuery directMessage.formatSearchQuery namesakes ≠ directMessage) ∧
    ∃ input, parseSearchQuery (parseSearchQuery input quotedChannel).formatSearchQuery quotedChannel
      ≠ parseSearchQuery input quotedChannel := by
  refine ⟨⟨⟨?_, ?_, ?_, ?_, [], rfl⟩, by decide +kernel⟩,
    ascii "word in:a" ++ [doubleQuote, 0x62], by decide +kernel⟩
  · intro r hr
    cases hr
    decide
  · exact fun m hm => absurd hm (not_mem_none m)
  · exact fun d hd => absurd hd (not_mem_none d)
  · exact fun d hd => absurd hd (not_mem_none d)

end SearchQuery

end Hibari
