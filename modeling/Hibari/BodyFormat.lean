import Mathlib

/-!
# Inline formatting of a body

How the client reads bold, italic, underlined and struck text, code, links, mentions and channels
out of a line of a body (`body-format.ts`). A text is a list of UTF-16 code units, and what the
source says of a position in a text is said of what follows it, and of the unit before it.

The reader of one node looks for atoms first – code, links, mentions and channels, in which nothing
is formatted –, then for an opening marker with a closing one, and takes anything else as it is.
The search for the closing marker passes the atoms too, in the text as it stands, while the text
between the markers is then read on its own. Nothing is lost by that (`parseInline_sound`): an atom
that the search passes is found again in between, because it ends before the closing marker, and
what precedes it is the opening marker at most, which never is part of a word.
-/

namespace Hibari

open List Option

namespace BodyFormat

/-! ## Code units -/

/-- A string: its UTF-16 code units. -/
abbrev Text := List UInt16

/-- The code units of an ASCII string. -/
def ascii (s : String) : Text := s.toList.map fun c => c.toNat.toUInt16

def newline : UInt16 := 0x0a

def backtick : UInt16 := 0x60

def less : UInt16 := 0x3c

def greater : UInt16 := 0x3e

def bar : UInt16 := 0x7c

def slash : UInt16 := 0x2f

def star : UInt16 := 0x2a

def underscore : UInt16 := 0x5f

def tilde : UInt16 := 0x7e

/-- The units that are digits or letters of ASCII. -/
def isAlphanumeric (c : UInt16) : Bool :=
  decide (0x30 ≤ c ∧ c ≤ 0x39 ∨ 0x41 ≤ c ∧ c ≤ 0x5a ∨ 0x61 ≤ c ∧ c ≤ 0x7a)

/-- Whether there is a unit that is part of a word. -/
def isWordChar (c : Option UInt16) : Bool := c.any isAlphanumeric

/-- White space, as a regular expression of the source sees it. -/
def isSpace (c : UInt16) : Bool :=
  decide (0x09 ≤ c ∧ c ≤ 0x0d ∨ 0x2000 ≤ c ∧ c ≤ 0x200a ∨
    c ∈ [0x20, 0xa0, 0x1680, 0x2028, 0x2029, 0x202f, 0x205f, 0x3000, 0xfeff])

/-! ## Nodes -/

/-- How text is emphasized. -/
inductive Emphasis
  | bold
  | italic
  | underline
  | strike
  deriving DecidableEq

/-- What stands on both sides of the text. -/
def Emphasis.marker : Emphasis → Text
  | .bold => [star]
  | .italic => [underscore]
  | .underline => [underscore, underscore]
  | .strike => [tilde]

/-- Who is mentioned. -/
inductive MentionKind
  | user (id : Text)
  | channel
  | here
  deriving DecidableEq

/-- A piece of a line. -/
inductive Inline
  | text (text : Text)
  | emphasis (kind : Emphasis) (children : List Inline)
  | code (text : Text)
  | link (url : Text) (label : Option Text)
  | mention (kind : MentionKind) (raw : Text)
  | channel (id raw : Text)

mutual

/-- A node as it is written. -/
def write : Inline → Text
  | .text text => text
  | .emphasis kind children => kind.marker ++ (writeAll children ++ kind.marker)
  | .code text => backtick :: (text ++ [backtick])
  | .link url none => url
  | .link url (some label) => less :: (url ++ bar :: (label ++ [greater]))
  | .mention _ raw => raw
  | .channel _ raw => raw

/-- Nodes as they are written. -/
def writeAll : List Inline → Text
  | [] => []
  | node :: nodes => write node ++ writeAll nodes

end

/-! ## Atoms -/

/-- The scheme that a text begins with. -/
def scheme? (text : Text) : Option Text :=
  if (ascii "https://").isPrefixOf text then some (ascii "https://")
  else if (ascii "http://").isPrefixOf text then some (ascii "http://")
  else none

/-- Code between backticks, not empty and of one line. -/
def readCode : Text → Option (Inline × ℕ)
  | [] => none
  | c :: rest =>
    if c ≠ backtick then none
    else match rest.idxOf? backtick with
      | none => none
      | some closing =>
        if 0 < closing ∧ ∀ n ∈ rest.idxOf? newline, closing < n then
          some (.code (rest.take closing), closing + 2)
        else none

/-- What a link with a label may have in its address. -/
def addressChar (c : UInt16) : Bool := !isSpace c && decide (c ∉ [less, greater, backtick, bar])

/-- What a label may have in it. -/
def labelChar (c : UInt16) : Bool := decide (c ∉ [less, greater, backtick, newline])

/-- A link with a label (`LABELED_LINK`). -/
def readLabeled : Text → Option (Inline × ℕ)
  | [] => none
  | c :: rest =>
    (scheme? rest).bind fun scheme =>
      let address := (rest.drop scheme.length).takeWhile addressChar
      let after := rest.drop (scheme.length + address.length)
      let label := after.tail.takeWhile labelChar
      if c = less ∧ address ≠ [] ∧ after.head? = some bar ∧ label ≠ [] ∧
          (after.tail.drop label.length).head? = some greater then
        some (.link (scheme ++ address) (some label), scheme.length + address.length +
          label.length + 3)
      else none

/-- A token with an id: `<`, a sign, twenty-six letters or digits, `>`. -/
def readId (sign : UInt16) (text : Text) : Option Text :=
  let id := (text.drop 2).take 26
  if text.take 2 = [less, sign] ∧ id.length = 26 ∧ id.all isAlphanumeric ∧
      (text.drop 28).head? = some greater then some id
  else none

/-- A link to a channel (`CHANNEL`). -/
def readChannel (text : Text) : Option (Inline × ℕ) :=
  (readId 0x23 text).map fun id => (.channel id (text.take 29), 29)

/-- A mention (`MENTION`). -/
def readMention (text : Text) : Option (Inline × ℕ) :=
  match readId 0x40 text with
  | some id => some (.mention (.user id) (text.take 29), 29)
  | none =>
    if (ascii "<!channel>").isPrefixOf text then some (.mention .channel (ascii "<!channel>"), 10)
    else if (ascii "<!here>").isPrefixOf text then some (.mention .here (ascii "<!here>"), 7)
    else none

/-- What an address in the text may have in it (`URL_CHAR` without `URL_EXCLUDED`). -/
def urlChar (c : UInt16) : Bool :=
  decide (0x21 ≤ c ∧ c ≤ 0x7e) && decide (c ∉ [less, greater, backtick])

/-- What an address in the text does not end with (`URL_TRAILING`). -/
def urlTrailing (c : UInt16) : Bool :=
  decide (c ∈ [0x2e, 0x2c, 0x3b, 0x3a, 0x21, 0x3f, 0x29, 0x5d, 0x7d, 0x27, 0x22, 0x2a, 0x5f, 0x7e])

/-- Whether an address goes on after its scheme. -/
def hasHost (url : Text) : Bool :=
  (scheme? url).any fun scheme => (url.drop scheme.length).head?.any fun c => decide (c ≠ slash)

/-- An address in the text. -/
def readUrl (previous : Option UInt16) (text : Text) : Option (Inline × ℕ) :=
  if (scheme? text).isNone ∨ isWordChar previous then none
  else
    let url := (text.takeWhile urlChar).rdropWhile urlTrailing
    if hasHost url then some (.link url none, url.length) else none

/-- The atom that a text begins with, and its length. -/
def readAtom (previous : Option UInt16) (text : Text) : Option (Inline × ℕ) :=
  match text with
  | [] => none
  | c :: _ =>
    if c = backtick then readCode text
    else if c = less then (readLabeled text).or ((readChannel text).or (readMention text))
    else readUrl previous text

/-! ## What the readers recognize

Each reader but the one of addresses finds a node exactly where the text begins with the node as it
is written. So it does not matter to it what comes after. -/

section Scan

variable {α : Type*} {p : α → Bool} {a : α} {xs ys : List α}

theorem idxOf?_append [DecidableEq α] (h : a ∉ xs) : (xs ++ a :: ys).idxOf? a = some xs.length := by
  induction xs with
  | nil => simp [idxOf?_cons]
  | cons x xs ih =>
    obtain ⟨hx, hxs⟩ : a ≠ x ∧ a ∉ xs := by simpa using h
    rw [cons_append, idxOf?_cons, ih hxs, if_neg (by simpa using Ne.symm hx)]
    rfl

theorem exists_of_idxOf? [DecidableEq α] {l : List α} {i : ℕ} (h : l.idxOf? a = some i) :
    ∃ xs ys, l = xs ++ a :: ys ∧ a ∉ xs ∧ xs.length = i := by
  induction l generalizing i with
  | nil => cases h
  | cons x l ih =>
    rw [idxOf?_cons] at h
    split at h
    · next hx =>
      cases h
      exact ⟨[], l, by rw [beq_iff_eq.mp hx]; rfl, not_mem_nil, rfl⟩
    · next hx =>
      obtain ⟨j, hj, rfl⟩ := map_eq_some_iff.mp h
      obtain ⟨xs, ys, rfl, hxs, rfl⟩ := ih hj
      have hne : a ≠ x := fun heq => hx (beq_iff_eq.mpr heq.symm)
      exact ⟨x :: xs, ys, rfl, by simp [hne, hxs], rfl⟩

theorem takeWhile_append_cons (hxs : ∀ x ∈ xs, p x = true) (ha : p a = false) :
    (xs ++ a :: ys).takeWhile p = xs := by
  rw [takeWhile_append_of_pos hxs, takeWhile_cons, ha]
  exact append_nil xs

theorem rdropWhile_append (hys : ∀ y ∈ ys, p y = true) :
    (xs ++ ys).rdropWhile p = xs.rdropWhile p := by
  induction ys using List.reverseRecOn with
  | nil => rw [append_nil]
  | append_singleton _ y ih =>
    rw [← append_assoc, rdropWhile_concat_pos _ _ _ (hys y (by simp))]
    exact ih fun z hz => hys z (mem_append_left _ hz)

end Scan

variable {id marker rest scheme t u : Text} {c sign : UInt16} {read : Text → Option (Inline × ℕ)}
    {good : Inline → Prop} {node : Inline} {close m n : ℕ} {last previous previous' : Option UInt16}
    {kind : Emphasis}

/-- A reader finds a node exactly where the text begins with it. -/
def Recognizes (read : Text → Option (Inline × ℕ)) (good : Inline → Prop) : Prop :=
  ∀ t node n, read t = some (node, n) ↔ write node <+: t ∧ n = (write node).length ∧ good node

/-- Code that can be written between backticks. -/
def IsCode (node : Inline) : Prop :=
  ∃ body, node = .code body ∧ body ≠ [] ∧ backtick ∉ body ∧ newline ∉ body

theorem recognizes_readCode : Recognizes readCode IsCode := by
  intro t node n
  constructor
  · intro h
    match t, h with
    | c :: rest, h =>
      rw [readCode] at h
      split at h
      · cases h
      · next hc =>
        split at h
        · cases h
        · next closing hclosing =>
          split at h
          · next hgood =>
            cases h
            obtain ⟨body, tail, rfl, hbody, rfl⟩ := exists_of_idxOf? hclosing
            have hline : newline ∉ body := by
              intro hmem
              cases hn : (body ++ backtick :: tail).idxOf? newline with
              | none =>
                exact idxOf?_eq_none_iff.mp hn (mem_append_left _ hmem)
              | some =>
                obtain ⟨xs, ys, heq, hxs, rfl⟩ := exists_of_idxOf? hn
                have hlt : body.length < xs.length := hgood.2 _ hn
                have hstart : body <+: xs := prefix_of_prefix_length_le
                  ⟨backtick :: tail, rfl⟩ ⟨newline :: ys, heq.symm⟩ hlt.le
                exact hxs (hstart.subset hmem)
            rw [take_left]
            refine ⟨⟨tail, ?_⟩, ?_, body, rfl, ne_nil_of_length_pos hgood.1, hbody, hline⟩
            · rw [not_not.mp hc]
              simp [write]
            · simp [write]
          · cases h
  · rintro ⟨⟨tail, rfl⟩, rfl, body, rfl, hne, hbody, hline⟩
    have htext : write (.code body) ++ tail = backtick :: (body ++ backtick :: tail) := by
      simp [write]
    rw [htext, readCode, if_neg (not_not.mpr rfl), idxOf?_append hbody]
    have hgood : 0 < body.length ∧
        ∀ n ∈ (body ++ backtick :: tail).idxOf? newline, body.length < n := by
      refine ⟨length_pos_iff.mpr hne, fun n hn => ?_⟩
      obtain ⟨xs, ys, heq, hxs, rfl⟩ := exists_of_idxOf? hn
      by_contra hle
      have hstart : xs ++ [newline] <+: body ++ [backtick] :=
        prefix_of_prefix_length_le ⟨ys, by simpa using heq.symm⟩ ⟨tail, by simp⟩ (by simp; omega)
      have hmem : newline ∈ body ++ [backtick] := hstart.subset (by simp)
      rcases mem_append.mp hmem with hmem | hmem
      · exact hline hmem
      · cases mem_singleton.mp hmem
    simp only [if_pos hgood, take_left]
    simp [write]

/-- The schemes of an address. -/
def schemes : List Text := [ascii "https://", ascii "http://"]

theorem mem_schemes_of_scheme? (h : scheme? t = some scheme) : scheme ∈ schemes ∧ scheme <+: t := by
  unfold scheme? at h
  split at h
  · next hs =>
    cases h
    exact ⟨.head _, isPrefixOf_iff_prefix.mp hs⟩
  · split at h
    · next hs =>
      cases h
      exact ⟨.tail _ (.head _), isPrefixOf_iff_prefix.mp hs⟩
    · cases h

/-- A text begins with one scheme at most. -/
theorem scheme?_append (h : scheme ∈ schemes) (t : Text) : scheme? (scheme ++ t) = some scheme := by
  rcases mem_cons.mp h with rfl | h
  · exact if_pos <| isPrefixOf_iff_prefix.mpr ⟨t, rfl⟩
  · obtain rfl := mem_singleton.mp h
    have hno : (ascii "https://").isPrefixOf (ascii "http://" ++ t) = false := rfl
    unfold scheme?
    rw [hno, if_neg Bool.false_ne_true, if_pos <| isPrefixOf_iff_prefix.mpr ⟨t, rfl⟩]

/-- A link with a label. -/
def IsLabeled (node : Inline) : Prop :=
  ∃ scheme address label, node = .link (scheme ++ address) (some label) ∧ scheme ∈ schemes ∧
    (address ≠ [] ∧ ∀ c ∈ address, addressChar c = true) ∧
      label ≠ [] ∧ ∀ c ∈ label, labelChar c = true

theorem recognizes_readLabeled : Recognizes readLabeled IsLabeled := by
  intro t node n
  constructor
  · intro h
    match t, h with
    | c :: rest, h =>
      obtain ⟨scheme, hscheme, h⟩ := bind_eq_some_iff.mp h
      simp only at h
      split at h
      · next hgood =>
        cases h
        obtain ⟨rfl, haddress, hbar, hlabel, hgreater⟩ := hgood
        obtain ⟨hmem, tail, rfl⟩ := mem_schemes_of_scheme? hscheme
        rw [drop_left] at haddress hbar hlabel hgreater ⊢
        generalize haddr : tail.takeWhile addressChar = address at *
        obtain ⟨after, rfl⟩ : address <+: tail := haddr ▸ takeWhile_prefix _
        have hafter : (scheme ++ (address ++ after)).drop (scheme.length + address.length)
            = after := by
          rw [← append_assoc, ← length_append, drop_left]
        rw [hafter] at hbar hlabel hgreater ⊢
        obtain ⟨rest, rfl⟩ := head?_eq_some_iff.mp hbar
        rw [tail_cons] at hlabel hgreater ⊢
        generalize hlab : rest.takeWhile labelChar = label at *
        obtain ⟨after, rfl⟩ : label <+: rest := hlab ▸ takeWhile_prefix _
        rw [drop_left] at hgreater
        obtain ⟨rest, rfl⟩ := head?_eq_some_iff.mp hgreater
        refine ⟨⟨rest, by simp [write]⟩, ?_, scheme, address, label, rfl, hmem,
          ⟨haddress, fun c hc => ?_⟩, hlabel, fun c hc => ?_⟩
        · simp only [write, length_cons, length_append, length_nil]
          omega
        · exact List.all_eq_true.mp all_takeWhile c (haddr ▸ hc)
        · exact List.all_eq_true.mp all_takeWhile c (hlab ▸ hc)
      · cases h
  · rintro ⟨⟨tail, rfl⟩, rfl, scheme, address, label, rfl, hscheme, ⟨haddress, hachars⟩, hlabel,
      hlchars⟩
    have htext : write (.link (scheme ++ address) (some label)) ++ tail
        = less :: (scheme ++ (address ++ bar :: (label ++ greater :: tail))) := by
      simp [write]
    have hafter : (scheme ++ (address ++ bar :: (label ++ greater :: tail))).drop
        (scheme.length + address.length) = bar :: (label ++ greater :: tail) := by
      rw [← append_assoc, ← length_append, drop_left]
    rw [htext, readLabeled, scheme?_append hscheme, bind_some]
    simp only [drop_left]
    rw [takeWhile_append_cons hachars (by decide), hafter, tail_cons,
      takeWhile_append_cons hlchars (by decide), drop_left,
      if_pos ⟨trivial, haddress, rfl, hlabel, rfl⟩]
    simp only [write, length_cons, length_append, length_nil, some_inj, Prod.mk.injEq, true_and]
    omega

/-- Twenty-six letters or digits. -/
def IsId (id : Text) : Prop := id.length = 26 ∧ ∀ c ∈ id, isAlphanumeric c = true

/-- A token with an id, as it is written. -/
def token (sign : UInt16) (id : Text) : Text := less :: sign :: (id ++ [greater])

theorem readId_eq_some_iff : readId sign t = some id ↔ token sign id <+: t ∧ IsId id := by
  constructor
  · intro h
    unfold readId at h
    simp only at h
    split at h
    · next hgood =>
      cases h
      obtain ⟨htwo, hlength, hall, hgreater⟩ := hgood
      refine ⟨?_, hlength, List.all_eq_true.mp hall⟩
      obtain ⟨rest, hrest⟩ := head?_eq_some_iff.mp hgreater
      refine ⟨rest, ?_⟩
      have hdrop : (t.drop 2).drop 26 = greater :: rest := by rw [drop_drop]; exact hrest
      calc token sign ((t.drop 2).take 26) ++ rest
          = [less, sign] ++ ((t.drop 2).take 26 ++ greater :: rest) := by simp [token]
        _ = t.take 2 ++ ((t.drop 2).take 26 ++ (t.drop 2).drop 26) := by rw [htwo, hdrop]
        _ = t := by rw [take_append_drop, take_append_drop]
    · cases h
  · rintro ⟨⟨tail, rfl⟩, hlength, hall⟩
    have htext : token sign id ++ tail = less :: sign :: (id ++ greater :: tail) := by
      simp [token]
    have htake : (id ++ greater :: tail).take 26 = id := by rw [← hlength, take_left]
    have hdrop : (id ++ greater :: tail).drop 26 = greater :: tail := by
      rw [← hlength, drop_left]
    unfold readId
    rw [htext]
    simp only [drop_succ_cons, drop_zero, take_succ_cons, take_zero, htake, hdrop, head?_cons]
    exact if_pos ⟨trivial, hlength, List.all_eq_true.mpr hall, trivial⟩

theorem length_token (sign : UInt16) (h : IsId id) : (token sign id).length = 29 := by
  simp [token, h.1]

/-- A link to a channel. -/
def IsChannel (node : Inline) : Prop := ∃ id, node = .channel id (token 0x23 id) ∧ IsId id

theorem recognizes_readChannel : Recognizes readChannel IsChannel := by
  intro t node n
  unfold readChannel
  rw [map_eq_some_iff]
  constructor
  · rintro ⟨id, hid, heq⟩
    cases heq
    obtain ⟨⟨tail, rfl⟩, hgood⟩ := readId_eq_some_iff.mp hid
    rw [← length_token 0x23 hgood, take_left]
    exact ⟨⟨tail, rfl⟩, rfl, id, rfl, hgood⟩
  · rintro ⟨⟨tail, rfl⟩, rfl, id, rfl, hgood⟩
    refine ⟨id, readId_eq_some_iff.mpr ⟨⟨tail, rfl⟩, hgood⟩, ?_⟩
    have hlength := length_token 0x23 hgood
    show (Inline.channel id ((token 0x23 id ++ tail).take 29), 29) = (_, (token 0x23 id).length)
    rw [← hlength, take_left]

/-- A mention. -/
def IsMention (node : Inline) : Prop :=
  (∃ id, node = .mention (.user id) (token 0x40 id) ∧ IsId id) ∨
    node = .mention .channel (ascii "<!channel>") ∨ node = .mention .here (ascii "<!here>")

/-- Two texts that differ in their second unit do not begin the same text. -/
theorem ne_of_initial {x y : Text} (hx : x <+: t) (hy : y <+: t) {a b : UInt16}
    (ha : x[1]? = some a) (hb : y[1]? = some b) : a = b := by
  obtain ⟨hx', -⟩ := List.getElem?_eq_some_iff.mp ha
  obtain ⟨hy', -⟩ := List.getElem?_eq_some_iff.mp hb
  obtain ⟨s, rfl⟩ := hx
  obtain ⟨s', heq⟩ := hy
  have hget := congrArg (·[1]?) heq
  simp only [getElem?_append_left hx', getElem?_append_left hy', ha, hb] at hget
  exact (some.inj hget).symm

theorem recognizes_readMention : Recognizes readMention IsMention := by
  intro t node n
  constructor
  · intro h
    unfold readMention at h
    split at h
    · next id hid =>
      cases h
      obtain ⟨⟨tail, rfl⟩, hgood⟩ := readId_eq_some_iff.mp hid
      rw [← length_token 0x40 hgood, take_left]
      exact ⟨⟨tail, rfl⟩, rfl, .inl ⟨id, rfl, hgood⟩⟩
    · split at h
      · next hchannel =>
        cases h
        exact ⟨ isPrefixOf_iff_prefix.mp hchannel, rfl, .inr (.inl rfl)⟩
      · split at h
        · next hhere =>
          cases h
          exact ⟨ isPrefixOf_iff_prefix.mp hhere, rfl, .inr (.inr rfl)⟩
        · cases h
  · rintro ⟨hstart, rfl, ⟨id, rfl, hgood⟩ | rfl | rfl⟩
    · obtain ⟨tail, rfl⟩ := hstart
      have hid : readId 0x40 (token 0x40 id ++ tail) = some id :=
        readId_eq_some_iff.mpr ⟨⟨tail, rfl⟩, hgood⟩
      have hlength := length_token 0x40 hgood
      have hwrite : write (.mention (.user id) (token 0x40 id)) = token 0x40 id := by simp [write]
      unfold readMention
      rw [hwrite, hid, ← hlength, take_left]
    · obtain ⟨tail, rfl⟩ := hstart
      rfl
    · obtain ⟨tail, rfl⟩ := hstart
      rfl

/-- **One of two readers**, where no text begins with what either recognizes. -/
theorem Recognizes.or {read' : Text → Option (Inline × ℕ)} {good' : Inline → Prop}
    (h : Recognizes read good) (h' : Recognizes read' good')
    (hne : ∀ x y t, good x → good' y → write x <+: t → ¬write y <+: t) :
    Recognizes (fun t => (read t).or (read' t)) fun x => good x ∨ good' x := by
  intro t node n
  simp only [or_eq_some_iff]
  constructor
  · rintro (hread | ⟨-, hread⟩)
    · obtain ⟨hstart, hn, hgood⟩ := (h t node n).mp hread
      exact ⟨hstart, hn, .inl hgood⟩
    · obtain ⟨hstart, hn, hgood⟩ := (h' t node n).mp hread
      exact ⟨hstart, hn, .inr hgood⟩
  · rintro ⟨hstart, hn, hgood | hgood⟩
    · exact .inl ((h t node n).mpr ⟨hstart, hn, hgood⟩)
    · refine .inr ⟨eq_none_iff_forall_ne_some.mpr ?_, (h' t node n).mpr ⟨hstart, hn, hgood⟩⟩
      rintro ⟨node', n'⟩ hread
      obtain ⟨hstart', -, hgood'⟩ := (h t node' n').mp hread
      exact hne node' node t hgood' hgood hstart' hstart

theorem second_of_isLabeled (h : IsLabeled node) : (write node)[1]? = some 0x68 := by
  obtain ⟨scheme, address, label, rfl, hscheme, -⟩ := h
  rcases mem_cons.mp hscheme with rfl | hscheme
  · rfl
  · obtain rfl := mem_singleton.mp hscheme
    rfl

theorem second_of_isChannel (h : IsChannel node) : (write node)[1]? = some 0x23 := by
  obtain ⟨id, rfl, -⟩ := h
  rfl

theorem second_of_isMention (h : IsMention node) :
    (write node)[1]? = some 0x40 ∨ (write node)[1]? = some 0x21 := by
  rcases h with ⟨id, rfl, -⟩ | rfl | rfl
  · exact .inl rfl
  · exact .inr rfl
  · exact .inr rfl

/-- What stands in angle brackets. -/
def IsToken (node : Inline) : Prop := IsLabeled node ∨ IsChannel node ∨ IsMention node

theorem recognizes_readToken : Recognizes
    (fun t => (readLabeled t).or ((readChannel t).or (readMention t))) IsToken := by
  refine recognizes_readLabeled.or (recognizes_readChannel.or recognizes_readMention ?_) ?_
  · intro x y t hx hy hxt hyt
    rcases second_of_isMention hy with h | h
    · cases ne_of_initial hxt hyt (second_of_isChannel hx) h
    · cases ne_of_initial hxt hyt (second_of_isChannel hx) h
  · intro x y t hx hy hxt hyt
    rcases hy with hy | hy
    · cases ne_of_initial hxt hyt (second_of_isLabeled hx) (second_of_isChannel hy)
    · rcases second_of_isMention hy with h | h
      · cases ne_of_initial hxt hyt (second_of_isLabeled hx) h
      · cases ne_of_initial hxt hyt (second_of_isLabeled hx) h

theorem Recognizes.take (h : Recognizes read good)
    (hread : read t = some (node, n)) (hm : n ≤ m) : read (t.take m) = some (node, n) := by
  obtain ⟨hstart, rfl, hgood⟩ := (h t node n).mp hread
  exact (h _ _ _).mpr ⟨prefix_take_iff.mpr ⟨hstart, hm⟩, rfl, hgood⟩

theorem Recognizes.of_take (h : Recognizes read good)
    (hread : read (t.take m) = some (node, n)) : read t = some (node, n) := by
  obtain ⟨hstart, rfl, hgood⟩ := (h _ node n).mp hread
  exact (h _ _ _).mpr ⟨hstart.trans <| take_prefix _ _, rfl, hgood⟩

/-! ### Addresses -/

/-- An address that stands by itself. -/
def IsUrl (node : Inline) : Prop :=
  ∃ url, node = .link url none ∧ hasHost url = true ∧ ∀ c ∈ url, urlChar c = true

/-- The address that a text begins with, if it does. -/
def urlOf (text : Text) : Text := (text.takeWhile urlChar).rdropWhile urlTrailing

theorem urlOf_initial (t : Text) : urlOf t <+: t :=
  IsPrefix.trans ( rdropWhile_prefix _ _) <| takeWhile_prefix _

theorem scheme?_of_initial (h : scheme? u = some scheme) (hstart : u <+: t) :
    scheme? t = some scheme := by
  obtain ⟨hmem, s, rfl⟩ := mem_schemes_of_scheme? h
  obtain ⟨s', rfl⟩ := hstart
  rw [append_assoc]
  exact scheme?_append hmem _

theorem hasHost_of_initial (h : hasHost u = true) (hstart : u <+: t) : hasHost t = true := by
  obtain ⟨scheme, hscheme, hhost⟩ := (Option.any_eq_true _ _).mp h
  obtain ⟨c, hc, hne⟩ := (Option.any_eq_true _ _).mp hhost
  refine (Option.any_eq_true _ _).mpr ⟨scheme, scheme?_of_initial hscheme hstart, ?_⟩
  refine (Option.any_eq_true _ _).mpr ⟨c, ?_, hne⟩
  obtain ⟨s, rfl⟩ := hstart
  obtain ⟨rest, hrest⟩ := head?_eq_some_iff.mp hc
  have hle : scheme.length ≤ u.length := (mem_schemes_of_scheme? hscheme).2.length_le
  rw [drop_append_of_le_length hle, hrest]
  rfl

theorem readUrl_eq_some_iff {x : Inline × ℕ} : readUrl previous t = some x ↔
      isWordChar previous = false ∧ hasHost (urlOf t) = true ∧
        x = (.link (urlOf t) none, (urlOf t).length) := by
  have hscheme : hasHost (urlOf t) = true → ¬(scheme? t).isNone = true := by
    intro hhost hnone
    obtain ⟨scheme, hs, -⟩ := (Option.any_eq_true _ _).mp hhost
    rw [scheme?_of_initial hs (urlOf_initial t)] at hnone
    exact Bool.false_ne_true hnone
  unfold readUrl
  show (if _ then none else if hasHost (urlOf t) = true then _ else none) = _ ↔ _
  constructor
  · intro h
    split at h
    · cases h
    · next hno =>
      split at h
      · next hhost => exact ⟨Bool.eq_false_iff.mpr (not_or.mp hno).2, hhost, (some.inj h).symm⟩
      · cases h
  · rintro ⟨hword, hhost, rfl⟩
    rw [if_neg (not_or.mpr ⟨hscheme hhost, Bool.eq_false_iff.mp hword⟩), if_pos hhost]
    rfl

/-- What is cut off after the address does not change it. -/
theorem urlOf_take (h : (urlOf t).length ≤ m) : urlOf (t.take m) = urlOf t := by
  have hsplit : urlOf t ++ (t.takeWhile urlChar).rtakeWhile urlTrailing = t.takeWhile urlChar :=
    rdropWhile_append_rtakeWhile
  have htake : (t.take m).takeWhile urlChar
      = urlOf t ++ ((t.takeWhile urlChar).rtakeWhile urlTrailing).take (m - (urlOf t).length) := by
    rw [← take_takeWhile]
    conv_lhs => rw [← hsplit]
    rw [take_append, take_of_length_le h]
  show ((t.take m).takeWhile urlChar).rdropWhile urlTrailing = _
  rw [htake, rdropWhile_append fun c hc => ?_]
  · exact rdropWhile_idempotent _ _
  · exact mem_rtakeWhile_imp (mem_of_mem_take hc)

/-- The address of a text that was cut off is the beginning of the address. -/
theorem urlOf_take_initial (t : Text) (m : ℕ) : urlOf (t.take m) <+: urlOf t := by
  have hmono : ∀ l x : Text, (l.rdropWhile urlTrailing) <+: ((l ++ x).rdropWhile urlTrailing) := by
    intro l x
    induction x using List.reverseRecOn with
    | nil => rw [append_nil]
    | append_singleton _ _ ih =>
      rw [← append_assoc, rdropWhile_concat]
      split
      · exact ih
      · rw [append_assoc]
        exact IsPrefix.trans ( rdropWhile_prefix _ _) (prefix_append _ _)
  show ((t.take m).takeWhile urlChar).rdropWhile urlTrailing <+: _
  rw [← take_takeWhile]
  conv_rhs => rw [urlOf, ← take_append_drop m (t.takeWhile urlChar)]
  exact hmono _ _

/-! ### Any atom -/

/-- What is not read any further. -/
def IsAtom (node : Inline) : Prop := IsCode node ∨ IsToken node ∨ IsUrl node

variable (h : readAtom previous t = some (node, n))
include h

/-- **What an atom is**: the text begins with it as it is written. -/
theorem readAtom_spec : write node <+: t ∧ n = (write node).length ∧ IsAtom node := by
  unfold readAtom at h
  match t, h with
  | c :: rest, h =>
    simp only at h
    split at h
    · obtain ⟨hstart, hn, hgood⟩ := (recognizes_readCode _ _ _).mp h
      exact ⟨hstart, hn, .inl hgood⟩
    · split at h
      · obtain ⟨hstart, hn, hgood⟩ := (recognizes_readToken _ _ _).mp h
        exact ⟨hstart, hn, .inr (.inl hgood)⟩
      · obtain ⟨-, hhost, heq⟩ := readUrl_eq_some_iff.mp h
        cases heq
        refine ⟨urlOf_initial _, rfl, .inr (.inr ⟨_, rfl, hhost, fun c hc => ?_⟩)⟩
        exact List.all_eq_true.mp all_takeWhile c (IsPrefix.subset ( rdropWhile_prefix _ _) hc)

omit h

theorem write_ne_nil (h : IsAtom node) : write node ≠ [] := by
  rcases h with ⟨body, rfl, -⟩ | h | ⟨url, rfl, hhost, -⟩
  · simp [write]
  · intro hnil
    have hsecond : (write node)[1]? = none := by rw [hnil]; rfl
    rcases h with h | h | h
    · rw [second_of_isLabeled h] at hsecond
      cases hsecond
    · rw [second_of_isChannel h] at hsecond
      cases hsecond
    · rcases second_of_isMention h with h | h
      · rw [h] at hsecond
        cases hsecond
      · rw [h] at hsecond
        cases hsecond
  · rintro hnil
    rw [show url = [] from hnil] at hhost
    cases hhost

include h

theorem readAtom_pos : 0 < n := by
  obtain ⟨-, rfl, hatom⟩ := readAtom_spec h
  exact length_pos_iff.mpr (write_ne_nil hatom)

theorem readAtom_take_of_some (hm : n ≤ m)
    (hprevious : isWordChar previous' = isWordChar previous) :
    readAtom previous' (t.take m) = some (node, n) := by
  obtain ⟨m, rfl⟩ := Nat.exists_eq_succ_of_ne_zero (readAtom_pos h |>.trans_le hm).ne'
  match t, h with
  | c :: rest, h =>
    unfold readAtom at h ⊢
    simp only [take_succ_cons] at h ⊢
    split at h
    · next hc =>
      rw [if_pos hc]
      exact recognizes_readCode.take h hm
    · next hc =>
      rw [if_neg hc]
      split at h
      · next hless =>
        rw [if_pos hless]
        exact recognizes_readToken.take h hm
      · next hless =>
        rw [if_neg hless]
        obtain ⟨hword, hhost, heq⟩ := readUrl_eq_some_iff.mp h
        cases heq
        have htake : urlOf (c :: rest.take m) = urlOf (c :: rest) := urlOf_take (m := m + 1) hm
        exact readUrl_eq_some_iff.mpr ⟨hprevious.trans hword, by rw [htake]; exact hhost,
          by rw [htake]⟩

omit h

theorem isSome_readAtom_of_take (h : readAtom previous' (t.take m) = some (node, n))
    (hprevious : isWordChar previous' = isWordChar previous) :
    (readAtom previous t).isSome = true := by
  match t, m, h with
  | [], _, h => rw [take_nil] at h; cases h
  | c :: rest, m + 1, h =>
    have hcons : c :: rest.take m = (c :: rest).take (m + 1) := rfl
    unfold readAtom at h ⊢
    simp only [take_succ_cons] at h ⊢
    split at h
    · next hc =>
      rw [hcons] at h
      rw [if_pos hc, recognizes_readCode.of_take h]
      rfl
    · next hc =>
      rw [if_neg hc]
      split at h
      · next hless =>
        rw [hcons] at h
        rw [if_pos hless, recognizes_readToken.of_take h]
        rfl
      · next hless =>
        rw [if_neg hless]
        obtain ⟨hword, hhost, -⟩ := readUrl_eq_some_iff.mp h
        have hsome : readUrl previous (c :: rest) = some _ := readUrl_eq_some_iff.mpr
          ⟨hprevious.symm.trans hword,
            hasHost_of_initial hhost (urlOf_take_initial (c :: rest) (m + 1)), rfl⟩
        rw [hsome]
        rfl

/-- **An atom of a text is one of its beginning**, and the other way round, if it ends there. -/
theorem readAtom_take (hprevious : isWordChar previous' = isWordChar previous)
    (hm : ∀ node n, readAtom previous t = some (node, n) → n ≤ m) :
    readAtom previous' (t.take m) = readAtom previous t := by
  cases h : readAtom previous t with
  | some x => exact readAtom_take_of_some h (hm x.1 x.2 h) hprevious
  | none =>
    cases h' : readAtom previous' (t.take m) with
    | none => rfl
    | some =>
      have hsome := isSome_readAtom_of_take h' hprevious
      rw [h] at hsome
      cases hsome

/-! ## Markers -/

/-- The marker that a text begins with. -/
def emphasisAt (text : Text) : Option Emphasis :=
  if Emphasis.underline.marker.isPrefixOf text then some .underline
  else match text.head? with
    | none => none
    | some c =>
      if c = star then some .bold
      else if c = underscore then some .italic
      else if c = tilde then some .strike
      else none

/-- The unit before position `n` of a text, where `first` comes before the text. -/
def before (first : Option UInt16) (text : Text) (n : ℕ) : Option UInt16 :=
  if n = 0 then first else text[n - 1]?

/-- How far it is to the closing marker, from the end of the opening one on. -/
def closeFrom (marker : Text) (last : Option UInt16) (text : Text) : Option ℕ :=
  match text with
  | [] => none
  | c :: rest =>
    if c = newline then none
    else match h : readAtom last (c :: rest) with
      | some (_, n) =>
        (closeFrom marker (before last (c :: rest) n) ((c :: rest).drop n)).map (n + ·)
      | none =>
        if marker = Emphasis.italic.marker ∧ Emphasis.underline.marker.isPrefixOf (c :: rest) then
          (closeFrom marker (some underscore) ((c :: rest).drop 2)).map (2 + ·)
        else
          let after := ((c :: rest).drop marker.length).head?
          if marker.isPrefixOf (c :: rest) ∧ last.any isSpace = false ∧ isWordChar after = false ∧
              after ≠ marker.head? then some 0
          else (closeFrom marker (some c) rest).map (1 + ·)
termination_by text.length
decreasing_by
  · have := readAtom_pos h
    simp only [length_drop, length_cons]
    omega
  · simp only [length_drop, length_cons]
    omega
  · simp only [length_cons]
    omega

/-- If a marker opens, how far it is to the closing one. -/
def findCloser (previous : Option UInt16) (marker inside : Text) : Option ℕ :=
  let next := inside.head?
  if isWordChar previous ∨ next.isNone ∨ next.any isSpace ∨ next = marker.head? then none
  else closeFrom marker marker.getLast? inside

/-- The emphasis that opens at the beginning of a text, and how long what it encloses is. -/
def openAt (previous : Option UInt16) (text : Text) : Option (Emphasis × ℕ) :=
  (emphasisAt text).bind fun kind =>
    (findCloser previous kind.marker (text.drop kind.marker.length)).map (kind, ·)

/-- Text that is taken as it is becomes a node, unless there is none. -/
def flush (plain : Text) : List Inline := if plain = [] then [] else [.text plain]

/-- The nodes of a text, where `plain` was taken as it is since the last one. -/
def parseFrom (plain : Text) (previous : Option UInt16) (text : Text) : List Inline :=
  match text with
  | [] => flush plain
  | c :: rest =>
    match _h : readAtom previous (c :: rest) with
    | some (node, n) =>
      flush plain ++ node :: parseFrom [] (before previous (c :: rest) n) ((c :: rest).drop n)
    | none =>
      match openAt previous (c :: rest) with
      | some (kind, close) =>
        let inside := (c :: rest).drop kind.marker.length
        flush plain ++ .emphasis kind (parseFrom [] none (inside.take close)) ::
          parseFrom [] kind.marker.getLast? (inside.drop (close + kind.marker.length))
      | none => parseFrom (plain ++ [c]) (some c) rest
termination_by text.length
decreasing_by
  · have := readAtom_pos _h
    simp only [length_drop, length_cons]
    omega
  · have : 0 < kind.marker.length := by cases kind <;> simp [Emphasis.marker]
    simp only [length_take, length_drop, length_cons]
    omega
  · have : 0 < kind.marker.length := by cases kind <;> simp [Emphasis.marker]
    simp only [length_drop, length_cons]
    omega
  · simp only [length_cons]
    omega

/-- **The nodes of a line.** -/
def parseInline (text : Text) : List Inline := parseFrom [] none text

/-! ## What the markers enclose -/

theorem marker_ne_nil (kind : Emphasis) : kind.marker ≠ [] :=
    by cases kind <;> exact cons_ne_nil _ _

theorem length_marker_pos (kind : Emphasis) : 0 < kind.marker.length :=
  length_pos_iff.mpr (marker_ne_nil kind)

theorem before_drop (first : Option UInt16) (t : Text) (m k : ℕ) :
    before (before first t m) (t.drop m) k = before first t (m + k) := by
  unfold before
  by_cases hk : k = 0
  · rw [if_pos hk, hk, Nat.add_zero]
  · rw [if_neg hk, if_neg (by omega), getElem?_drop]
    exact congrArg (t[·]?) (by omega)

theorem newline_notMem_token (h : IsId id) (hsign : newline ≠ sign) : newline ∉ token sign id := by
  intro hmem
  rcases mem_cons.mp hmem with heq | hmem
  · cases heq
  · rcases mem_cons.mp hmem with heq | hmem
    · exact hsign heq
    · rcases mem_append.mp hmem with hmem | hmem
      · cases h.2 _ hmem
      · cases mem_singleton.mp hmem

/-- An atom is of one line. -/
theorem newline_notMem_write (h : IsAtom node) : newline ∉ write node := by
  rcases h with ⟨body, rfl, -, -, hline⟩ | (h | h | h) | ⟨url, rfl, -, hchars⟩
  · have hback : newline ≠ backtick := by decide
    simp [write, hback, hline]
  · obtain ⟨scheme, address, label, rfl, hscheme, ⟨-, haddress⟩, -, hlabel⟩ := h
    have hless : newline ≠ less := by decide
    have hbar : newline ≠ bar := by decide
    have hgreater : newline ≠ greater := by decide
    have hscheme' : newline ∉ scheme := by
      rcases mem_cons.mp hscheme with rfl | hscheme
      · decide
      · rw [mem_singleton.mp hscheme]
        decide
    have haddress' : newline ∉ address := fun hmem => nomatch haddress _ hmem
    have hlabel' : newline ∉ label := fun hmem => nomatch hlabel _ hmem
    simp [write, hless, hbar, hgreater, hscheme', haddress', hlabel']
  · obtain ⟨id, rfl, hid⟩ := h
    exact newline_notMem_token hid (by decide)
  · rcases h with ⟨id, rfl, hid⟩ | rfl | rfl
    · exact newline_notMem_token hid (by decide)
    · show newline ∉ ascii "<!channel>"
      decide
    · show newline ∉ ascii "<!here>"
      decide
  · exact fun hmem => nomatch hchars _ hmem

include h

theorem take_of_readAtom : t.take n = write node := by
  obtain ⟨⟨s, rfl⟩, rfl, -⟩ := readAtom_spec h
  exact take_left

omit h

theorem closeFrom_of_some (hc : c ≠ newline) (h : readAtom last (c :: rest) = some (node, n)) :
    closeFrom marker last (c :: rest)
      = (closeFrom marker (before last (c :: rest) n) ((c :: rest).drop n)).map (n + ·) := by
  rw [closeFrom, if_neg hc]
  split
  · next hatom =>
    cases hatom.symm.trans h
    rfl
  · next hatom => exact absurd (hatom.symm.trans h) (some_ne_none _).symm

/-- Whether the search takes two units for one, because they are the marker of an underline. -/
def Skips (marker t : Text) : Prop :=
  marker = Emphasis.italic.marker ∧ Emphasis.underline.marker.isPrefixOf t = true

instance (marker t : Text) : Decidable (Skips marker t) := inferInstanceAs (Decidable (_ ∧ _))

/-- Whether the marker closes here. -/
def Closes (marker : Text) (last : Option UInt16) (t : Text) : Prop :=
  marker.isPrefixOf t = true ∧ last.any isSpace = false ∧
    isWordChar (t.drop marker.length).head? = false ∧ (t.drop marker.length).head? ≠ marker.head?

instance (marker : Text) (last : Option UInt16) (t : Text) : Decidable (Closes marker last t) :=
  inferInstanceAs (Decidable (_ ∧ _))

/-- The search at a unit that is not the beginning of an atom. -/
theorem closeFrom_of_none (hc : c ≠ newline) (h : readAtom last (c :: rest) = none) :
    closeFrom marker last (c :: rest) = if Skips marker (c :: rest) then
          (closeFrom marker (some underscore) ((c :: rest).drop 2)).map (2 + ·)
        else if Closes marker last (c :: rest) then some 0
        else (closeFrom marker (some c) rest).map (1 + ·) := by
  rw [closeFrom, if_neg hc]
  split
  · next hatom => exact absurd (hatom.symm.trans h) (some_ne_none _)
  · rfl

/-- **Where the closing marker is found**, the line has not ended, and no space comes before it. -/
theorem closeFrom_spec (h : closeFrom marker last t = some n) :
    marker <+: t.drop n ∧ newline ∉ t.take n ∧ (before last t n).any isSpace = false := by
  induction hlength : t.length using Nat.strong_induction_on generalizing last t n with
  | _ length ih =>
    subst hlength
    match t with
    | [] =>
      rw [closeFrom] at h
      cases h
    | c :: rest =>
      by_cases hc : c = newline
      · rw [closeFrom, if_pos hc] at h
        cases h
      · cases hatom : readAtom last (c :: rest) with
        | some =>
          have hpos := readAtom_pos hatom
          rw [closeFrom_of_some hc hatom] at h
          obtain ⟨k, hk, rfl⟩ := map_eq_some_iff.mp h
          obtain ⟨hmarker, hline, hspace⟩ := ih _ (by simp; omega) hk rfl
          refine ⟨by rwa [drop_drop] at hmarker, ?_, by rwa [before_drop] at hspace⟩
          rw [take_add, mem_append, take_of_readAtom hatom]
          exact not_or.mpr ⟨newline_notMem_write (readAtom_spec hatom).2.2, hline⟩
        | none =>
          rw [closeFrom_of_none hc hatom] at h
          split at h
          · next hskips =>
            obtain ⟨k, hk, rfl⟩ := map_eq_some_iff.mp h
            obtain ⟨hmarker, hline, hspace⟩ := ih _ (by simp) hk rfl
            obtain ⟨s, hs⟩ := isPrefixOf_iff_prefix.mp hskips.2
            have hbefore : some underscore = before last (c :: rest) 2 := by rw [← hs]; rfl
            have htake : (c :: rest).take 2 = [underscore, underscore] := by rw [← hs]; rfl
            rw [hbefore, before_drop] at hspace
            refine ⟨by rwa [drop_drop] at hmarker, ?_, hspace⟩
            rw [take_add, mem_append, htake]
            exact not_or.mpr ⟨by decide, hline⟩
          · split at h
            · next hcloses =>
              cases h
              exact ⟨ isPrefixOf_iff_prefix.mp hcloses.1, not_mem_nil, hcloses.2.1⟩
            · obtain ⟨k, hk, rfl⟩ := map_eq_some_iff.mp h
              obtain ⟨hmarker, hline, hspace⟩ := ih _ (by simp) hk rfl
              have hbefore : some c = before last (c :: rest) 1 := rfl
              have hdrop : rest = (c :: rest).drop 1 := rfl
              rw [hdrop] at hmarker hline hspace
              rw [hbefore, before_drop] at hspace
              refine ⟨by rwa [drop_drop] at hmarker, ?_, hspace⟩
              rw [take_add, mem_append]
              exact not_or.mpr ⟨fun hmem => hc (mem_singleton.mp hmem).symm, hline⟩

theorem emphasisAt_initial (h : emphasisAt t = some kind) : kind.marker <+: t := by
  unfold emphasisAt at h
  split at h
  · next hunderline =>
    cases h
    exact isPrefixOf_iff_prefix.mp hunderline
  · split at h
    · cases h
    · next c hhead =>
      obtain ⟨rest, rfl⟩ := head?_eq_some_iff.mp hhead
      split at h
      · next hc => exact some.inj h ▸ hc ▸ ⟨rest, rfl⟩
      · split at h
        · next hc => exact some.inj h ▸ hc ▸ ⟨rest, rfl⟩
        · split at h
          · next hc => exact some.inj h ▸ hc ▸ ⟨rest, rfl⟩
          · cases h

/-- **What stands between two markers**: something, of one line, with no space at either end. -/
structure Enclosed (content : Text) : Prop where
  nonempty : content ≠ []
  line : newline ∉ content
  head : content.head?.any isSpace = false
  last : content.getLast?.any isSpace = false

theorem openAt_spec (h : openAt previous t = some (kind, close)) :
    ∃ content rest, t = kind.marker ++ (content ++ (kind.marker ++ rest)) ∧
      content.length = close ∧ isWordChar previous = false ∧
      closeFrom kind.marker kind.marker.getLast? (content ++ (kind.marker ++ rest)) = some close ∧
      Enclosed content := by
  obtain ⟨kind', hkind, h⟩ := bind_eq_some_iff.mp h
  obtain ⟨close', hclose, hpair⟩ := map_eq_some_iff.mp h
  obtain ⟨rfl, rfl⟩ := Prod.mk.inj hpair
  obtain ⟨inside, rfl⟩ := emphasisAt_initial hkind
  rw [drop_left] at hclose
  unfold findCloser at hclose
  simp only at hclose
  split at hclose
  · exact absurd hclose (some_ne_none _).symm
  · next hopens =>
    obtain ⟨hword, hnone, hspace, hmarker⟩ := by simpa only [not_or] using hopens
    obtain ⟨⟨rest, hrest⟩, hline, hlast⟩ := closeFrom_spec hclose
    have hsplit : inside = inside.take close' ++ (kind'.marker ++ rest) := by
      rw [hrest, take_append_drop]
    have hpos : close' ≠ 0 := by
      rintro rfl
      refine hmarker ?_
      rw [hsplit, take_zero, nil_append]
      cases kind' <;> rfl
    have hlength : (inside.take close').length = close' := by
      have hle : close' ≤ inside.length := by
        by_contra hlt
        rw [drop_eq_nil_of_le (not_le.mp hlt).le] at hrest
        exact marker_ne_nil kind' (append_eq_nil_iff.mp hrest).1
      rw [length_take, min_eq_left hle]
    have hnonempty : inside.take close' ≠ [] := fun hnil => hpos (by rw [← hlength, hnil]; rfl)
    refine ⟨inside.take close', rest, congrArg _ hsplit, hlength, Bool.eq_false_iff.mpr hword,
      hsplit ▸ hclose, hnonempty, hline, ?_, ?_⟩
    · rw [head?_take, if_neg hpos]
      exact Bool.eq_false_iff.mpr hspace
    · rw [getLast?_eq_getElem?, hlength, getElem?_take_of_lt (by omega)]
      rwa [before, if_neg hpos] at hlast

/-! ## The nodes of a line -/

theorem writeAll_append (xs ys : List Inline) : writeAll (xs ++ ys) = writeAll xs ++
    writeAll ys := by
  induction xs with
  | nil => rw [nil_append, writeAll, nil_append]
  | cons _ _ ih => rw [cons_append, writeAll, writeAll, ih, append_assoc]

theorem writeAll_flush (plain : Text) : writeAll (flush plain) = plain := by
  unfold flush
  split
  · next hnil => rw [hnil, writeAll]
  · rw [writeAll, writeAll, write, append_nil]

theorem openAt_split (h : openAt previous t = some (kind, close)) :
    kind.marker ++ ((t.drop kind.marker.length).take close ++ (kind.marker ++
      (t.drop kind.marker.length).drop (close + kind.marker.length))) = t ∧
      Enclosed ((t.drop kind.marker.length).take close) := by
  obtain ⟨content, rest, rfl, rfl, -, -, henclosed⟩ := openAt_spec h
  rw [drop_left, take_left, ← drop_drop, drop_left, drop_left]
  exact ⟨rfl, henclosed⟩

/-- **Nothing is lost.** -/
theorem writeAll_parseFrom (plain : Text) (previous : Option UInt16) (t : Text) :
    writeAll (parseFrom plain previous t) = plain ++ t := by
  fun_induction parseFrom plain previous t with
  | case1 =>
    rw [writeAll_flush, append_nil]
  | case2 _ _ _ _ _ _ hatom ih =>
    rw [writeAll_append, writeAll_flush, writeAll, ih, nil_append, ← take_of_readAtom hatom,
      take_append_drop]
  | case3 _ _ _ _ _ _ _ hopen _ ih ih' =>
    rw [writeAll_append, writeAll_flush, writeAll, write, ih, ih', nil_append,
      nil_append, append_assoc, append_assoc, (openAt_split hopen).1]
  | case4 _ _ _ _ _ _ ih =>
    rw [ih, append_assoc]
    rfl

/-- Text that is taken as it is. -/
def Inline.isText : Inline → Bool
  | .text _ => true
  | _ => false

/-- No two pieces of text are next to each other. -/
def Apart (nodes : List Inline) : Prop :=
  nodes.IsChain fun x y => ¬(x.isText = true ∧ y.isText = true)

theorem isText_of_isAtom (h : IsAtom node) : node.isText = false := by
  rcases h with ⟨body, rfl, -⟩ | (h | h | h) | ⟨url, rfl, -⟩
  · rfl
  · obtain ⟨scheme, address, label, rfl, -⟩ := h
    rfl
  · obtain ⟨id, rfl, -⟩ := h
    rfl
  · rcases h with ⟨id, rfl, -⟩ | rfl | rfl <;> rfl
  · rfl

theorem Apart.flush_append {nodes : List Inline} (h : Apart nodes)
    (hnode : node.isText = false) (plain : Text) : Apart (flush plain ++ node :: nodes) := by
  have hcons : Apart (node :: nodes) :=
    isChain_cons.mpr ⟨fun y _ hboth => absurd (hnode.symm.trans hboth.1) (by decide), h⟩
  unfold flush
  split
  · exact hcons
  · refine isChain_cons.mpr ⟨fun y hy hboth => ?_, hcons⟩
    obtain rfl : node = y := Option.some.inj hy
    cases hnode.symm.trans hboth.2

theorem apart_parseFrom (plain : Text) (previous : Option UInt16) (t : Text) :
    Apart (parseFrom plain previous t) := by
  fun_induction parseFrom plain previous t with
  | case1 =>
    unfold flush
    split
    · exact isChain_nil
    · exact isChain_singleton _
  | case2 plain _ _ _ _ _ hatom ih =>
    exact ih.flush_append (isText_of_isAtom (readAtom_spec hatom).2.2) plain
  | case3 plain _ _ _ _ _ _ _ _ _ ih' =>
    exact ih'.flush_append rfl plain
  | case4 _ _ _ _ _ _ ih => exact ih

/-- **Nodes that are well nested**: pieces of text are apart, and what an emphasis encloses is
something, of one line, without space at its ends, and is read by itself as the nodes it has, which
are well nested. -/
inductive WellNested : List Inline → Prop
  | intro {nodes : List Inline} : Apart nodes →
      (∀ kind children, .emphasis kind children ∈ nodes → children ≠ [] ∧
        Enclosed (writeAll children) ∧ parseInline (writeAll children) = children) →
      (∀ kind children, .emphasis kind children ∈ nodes → WellNested children) →
      WellNested nodes

theorem emphasis_ne_of_isAtom (h : IsAtom node) (kind : Emphasis)
    (children : List Inline) : .emphasis kind children ≠ node := by
  rintro rfl
  rcases h with ⟨body, heq, -⟩ | (h | h | h) | ⟨url, heq, -⟩
  · exact Inline.noConfusion heq
  · obtain ⟨scheme, address, label, heq, -⟩ := h
    exact Inline.noConfusion heq
  · obtain ⟨id, heq, -⟩ := h
    exact Inline.noConfusion heq
  · rcases h with ⟨id, heq, -⟩ | heq | heq <;> exact Inline.noConfusion heq
  · exact Inline.noConfusion heq

theorem emphasis_notMem_flush (plain : Text) (kind : Emphasis) (children : List Inline) :
    .emphasis kind children ∉ flush plain := by
  unfold flush
  split
  · exact not_mem_nil
  · exact fun hmem => Inline.noConfusion (mem_singleton.mp hmem)

/-- What is emphasized was opened somewhere. -/
theorem exists_content_of_mem (plain : Text) (previous : Option UInt16) (t : Text) {children : List Inline}
    (h : .emphasis kind children ∈ parseFrom plain previous t) :
    ∃ content, Enclosed content ∧ content.length < t.length ∧ children = parseInline content := by
  fun_induction parseFrom plain previous t with
  | case1 plain => exact absurd h (emphasis_notMem_flush plain kind children)
  | case2 plain _ _ _ _ _ hatom ih =>
    rcases mem_append.mp h with h | h
    · exact absurd h (emphasis_notMem_flush plain kind children)
    · rcases mem_cons.mp h with heq | h
      · exact absurd heq (emphasis_ne_of_isAtom (readAtom_spec hatom).2.2 kind children)
      · obtain ⟨content, henclosed, hlt, heq⟩ := ih h
        exact ⟨content, henclosed, hlt.trans_le (drop_sublist _ _).length_le, heq⟩
  | case3 plain _ _ _ _ _ close hopen inside _ ih' =>
    rcases mem_append.mp h with h | h
    · exact absurd h (emphasis_notMem_flush plain kind children)
    · rcases mem_cons.mp h with heq | h
      · obtain ⟨rfl, rfl⟩ := Inline.emphasis.inj heq
        refine ⟨inside.take close, (openAt_split hopen).2, ?_, rfl⟩
        have hpos := length_marker_pos kind
        simp only [inside, length_take, length_drop, length_cons]
        omega
      · obtain ⟨content, henclosed, hlt, heq⟩ := ih' h
        exact ⟨content, henclosed, hlt.trans_le ((drop_sublist _ _).trans
          (drop_sublist _ _)).length_le, heq⟩
  | case4 _ _ _ _ _ _ ih =>
    obtain ⟨content, henclosed, hlt, heq⟩ := ih h
    exact ⟨content, henclosed, hlt.trans (Nat.lt_succ_self _), heq⟩

theorem writeAll_parseInline (t : Text) : writeAll (parseInline t) = t :=
    writeAll_parseFrom [] none t

theorem wellNested_parseInline (t : Text) : WellNested (parseInline t) := by
  induction hlength : t.length using Nat.strong_induction_on generalizing t with
  | _ length ih =>
    subst hlength
    refine .intro (apart_parseFrom [] none t) (fun kind children hmem => ?_)
      fun kind children hmem => ?_
    · obtain ⟨content, henclosed, -, rfl⟩ := exists_content_of_mem [] none t hmem
      rw [writeAll_parseInline]
      refine ⟨fun hnil => henclosed.nonempty ?_, henclosed, rfl⟩
      rw [← writeAll_parseInline content, hnil, writeAll]
    · obtain ⟨content, -, hlt, rfl⟩ := exists_content_of_mem [] none t hmem
      exact ih _ hlt content rfl

/-! ## The atoms of a line

The search for a closing marker passes the atoms of the text from the opening marker on. They are
the atoms of what is enclosed, read on its own: what is enclosed ends where the search found the
closing marker, which is not within an atom. -/

/-- The atoms of a text, where everything else is passed unit by unit. -/
def atomsFrom (previous : Option UInt16) (text : Text) : List Inline :=
  match text with
  | [] => []
  | c :: rest =>
    match _h : readAtom previous (c :: rest) with
    | some (node, n) => node :: atomsFrom (before previous (c :: rest) n) ((c :: rest).drop n)
    | none => atomsFrom (some c) rest
termination_by text.length
decreasing_by
  · have := readAtom_pos _h
    simp only [length_drop, length_cons]
    omega
  · simp only [length_cons]
    omega

mutual

/-- The atoms in a node. -/
def atomsIn : Inline → List Inline
  | .text _ => []
  | .emphasis _ children => atomsInAll children
  | .code text => [.code text]
  | .link url label => [.link url label]
  | .mention kind raw => [.mention kind raw]
  | .channel id raw => [.channel id raw]

/-- The atoms in nodes, in their order. -/
def atomsInAll : List Inline → List Inline
  | [] => []
  | node :: nodes => atomsIn node ++ atomsInAll nodes

end

variable {previous : Option UInt16} {t : Text} {node : Inline} {n : ℕ}

theorem atomsFrom_of_some (h : readAtom previous t = some (node, n)) :
    atomsFrom previous t = node :: atomsFrom (before previous t n) (t.drop n) := by
  match t, h with
  | c :: rest, h =>
    rw [atomsFrom]
    split
    · next hatom =>
      cases hatom.symm.trans h
      rfl
    · next hatom => exact absurd (hatom.symm.trans h) (some_ne_none _).symm

theorem atomsFrom_of_none {c : UInt16} {rest : Text} (h : readAtom previous (c :: rest) = none) :
    atomsFrom previous (c :: rest) = atomsFrom (some c) rest := by
  rw [atomsFrom]
  split
  · next hatom => exact absurd (hatom.symm.trans h) (some_ne_none _)
  · rfl

/-- A marker is no part of an atom that begins with it. -/
theorem atomsFrom_marker (kind : Emphasis) (previous : Option UInt16) (t : Text) :
    atomsFrom previous (kind.marker ++ t) = atomsFrom kind.marker.getLast? t := by
  have hunit : ∀ c ∈ [star, underscore, tilde], ∀ (previous : Option UInt16) (rest : Text),
      atomsFrom previous (c :: rest) = atomsFrom (some c) rest := by
    intro c hc previous rest
    refine atomsFrom_of_none ?_
    have hscheme : (scheme? (c :: rest)).isNone = true := by
      rcases mem_cons.mp hc with rfl | hc
      · rfl
      · rcases mem_cons.mp hc with rfl | hc
        · rfl
        · rw [mem_singleton.mp hc]
          rfl
    have hback : c ≠ backtick := by
      rintro rfl
      exact nomatch hc
    have hless : c ≠ less := by
      rintro rfl
      exact nomatch hc
    show (if c = backtick then _ else if c = less then _ else readUrl previous (c :: rest)) = none
    rw [if_neg hback, if_neg hless, readUrl, if_pos (.inl hscheme)]
  cases kind
  · exact hunit star (by decide) previous t
  · exact hunit underscore (by decide) previous t
  · exact (hunit underscore (by decide) previous _).trans (hunit underscore (by decide) _ t)
  · exact hunit tilde (by decide) previous t

/-- **What the search passes is what is read later**: up to where the closing marker was found, the
text has the atoms that it has on its own, and the others come after. -/
theorem atomsFrom_split {marker : Text} {last last' : Option UInt16}
    (h : closeFrom marker last t = some n) (hlast : isWordChar last' = isWordChar last) :
    atomsFrom last t = atomsFrom last' (t.take n) ++ atomsFrom (before last t n) (t.drop n) := by
  induction hlength : t.length using Nat.strong_induction_on generalizing last last' t n with
  | _ length ih =>
    subst hlength
    match t with
    | [] =>
      rw [closeFrom] at h
      cases h
    | c :: rest =>
      by_cases hc : c = newline
      · rw [closeFrom, if_pos hc] at h
        cases h
      · cases hatom : readAtom last (c :: rest) with
        | some x =>
          obtain ⟨node, m⟩ := x
          have hpos := readAtom_pos hatom
          rw [closeFrom_of_some hc hatom] at h
          obtain ⟨k, hk, rfl⟩ := map_eq_some_iff.mp h
          have htake : readAtom last' ((c :: rest).take (m + k)) = some (node, m) :=
            readAtom_take_of_some hatom (Nat.le_add_right m k) hlast
          have hbefore : before last' ((c :: rest).take (m + k)) m = before last (c :: rest) m := by
            rw [before, before, if_neg hpos.ne', if_neg hpos.ne', getElem?_take_of_lt (by omega)]
          have hdrop : ((c :: rest).take (m + k)).drop m = ((c :: rest).drop m).take k := by
            rw [drop_take, Nat.add_sub_cancel_left]
          have hrest := ih _ (by simp; omega) hk rfl rfl
          rw [before_drop, drop_drop] at hrest
          rw [atomsFrom_of_some hatom, atomsFrom_of_some htake, hbefore, hdrop, hrest, cons_append]
        | none =>
          rw [closeFrom_of_none hc hatom] at h
          split at h
          · next hskips =>
            obtain ⟨k, hk, rfl⟩ := map_eq_some_iff.mp h
            obtain ⟨t, ht⟩ := isPrefixOf_iff_prefix.mp hskips.2
            have hrest := ih _ (by simp) hk rfl rfl
            rw [← ht] at hrest ⊢
            have htake : (Emphasis.underline.marker ++ t).take (2 + k)
                = Emphasis.underline.marker ++ t.take k := by
              show (underscore :: underscore :: t).take (2 + k) = _
              rw [Nat.add_comm]
              rfl
            have hbefore : before last (Emphasis.underline.marker ++ t) (2 + k)
                = before (some underscore) t k := (before_drop last _ 2 k).symm
            have hdrop : (Emphasis.underline.marker ++ t).drop (2 + k) = t.drop k := by
              rw [← drop_drop]
              rfl
            rw [htake, hbefore, hdrop, atomsFrom_marker, atomsFrom_marker]
            exact hrest
          · split at h
            · next hcloses =>
              cases h
              rw [take_zero, atomsFrom, nil_append]
              rfl
            · obtain ⟨k, hk, rfl⟩ := map_eq_some_iff.mp h
              have htake : (c :: rest).take (1 + k) = c :: rest.take k := by
                rw [Nat.add_comm, take_succ_cons]
              have hno : readAtom last' (c :: rest.take k) = none := by
                rw [← htake]
                refine (readAtom_take hlast fun node n hsome => ?_).trans hatom
                exact absurd (hatom.symm.trans hsome) (some_ne_none _).symm
              have hbefore : before last (c :: rest) (1 + k) = before (some c) rest k :=
                (before_drop last _ 1 k).symm
              have hdrop : (c :: rest).drop (1 + k) = rest.drop k := by
                rw [Nat.add_comm, drop_succ_cons]
              rw [htake, hbefore, hdrop, atomsFrom_of_none hatom, atomsFrom_of_none hno]
              exact ih _ (by simp) hk rfl rfl

/-- **The search of a closing marker and the reading of what it encloses find the same atoms.** -/
theorem atomsFrom_of_openAt {kind : Emphasis} {close : ℕ}
    (h : openAt previous t = some (kind, close)) :
    atomsFrom previous t = atomsFrom none ((t.drop kind.marker.length).take close) ++
      atomsFrom kind.marker.getLast?
        ((t.drop kind.marker.length).drop (close + kind.marker.length)) := by
  obtain ⟨content, rest, rfl, rfl, -, hclose, -⟩ := openAt_spec h
  have hword : isWordChar none = isWordChar kind.marker.getLast? := by cases kind <;> rfl
  have hsplit := atomsFrom_split hclose hword
  rw [take_left, drop_left, atomsFrom_marker] at hsplit
  rw [drop_left, take_left, ← drop_drop, drop_left, drop_left, atomsFrom_marker, hsplit]

theorem atomsInAll_append (xs ys : List Inline) :
    atomsInAll (xs ++ ys) = atomsInAll xs ++ atomsInAll ys := by
  induction xs with
  | nil => rw [nil_append, atomsInAll, nil_append]
  | cons _ _ ih => rw [cons_append, atomsInAll, atomsInAll, ih, append_assoc]

theorem atomsInAll_flush (plain : Text) : atomsInAll (flush plain) = [] := by
  unfold flush
  split
  · rw [atomsInAll]
  · rw [atomsInAll, atomsIn, atomsInAll, nil_append]

theorem atomsIn_of_isAtom (h : IsAtom node) : atomsIn node = [node] := by
  rcases h with ⟨body, rfl, -⟩ | (h | h | h) | ⟨url, rfl, -⟩
  · rw [atomsIn]
  · obtain ⟨scheme, address, label, rfl, -⟩ := h
    rw [atomsIn]
  · obtain ⟨id, rfl, -⟩ := h
    rw [atomsIn]
  · rcases h with ⟨id, rfl, -⟩ | rfl | rfl <;> rw [atomsIn]
  · rw [atomsIn]

/-- **The nodes have the atoms of the text**, whatever emphasis they are in. -/
theorem atomsInAll_parseFrom (plain : Text) (previous : Option UInt16) (t : Text) :
    atomsInAll (parseFrom plain previous t) = atomsFrom previous t := by
  fun_induction parseFrom plain previous t with
  | case1 =>
    rw [atomsInAll_flush, atomsFrom]
  | case2 _ _ _ _ _ _ hatom ih =>
    rw [atomsInAll_append, atomsInAll_flush, atomsInAll,
      atomsIn_of_isAtom (readAtom_spec hatom).2.2, ih, atomsFrom_of_some hatom]
    rfl
  | case3 _ _ _ _ _ _ _ hopen _ ih ih' =>
    rw [atomsInAll_append, atomsInAll_flush, atomsInAll, atomsIn, ih, ih',
      atomsFrom_of_openAt hopen]
    rfl
  | case4 _ _ _ _ hatom _ ih =>
    rw [ih, atomsFrom_of_none hatom]

/-- **The parser of a line is lossless and well nested.** The nodes are written as the line. No two
pieces of text are next to each other; what an emphasis encloses is not empty, has no newline and no
space at its ends, and has the same nodes when it is read by itself. And wherever a marker opens,
the search for the closing one passed the atoms of what the two enclose, as these are read later:
the nodes have the atoms that the line has without any emphasis. -/
theorem parseInline_sound (t : Text) : writeAll (parseInline t) = t ∧ WellNested (parseInline t) ∧
      atomsInAll (parseInline t) = atomsFrom none t ∧
      ∀ (i : ℕ) (kind : Emphasis) (close : ℕ),
        openAt (before none t i) (t.drop i) = some (kind, close) →
          let inside := (t.drop i).drop kind.marker.length
          atomsFrom kind.marker.getLast? inside = atomsInAll (parseInline (inside.take close)) ++
              atomsFrom kind.marker.getLast? (inside.drop (close + kind.marker.length)) := by
  refine ⟨writeAll_parseInline t, wellNested_parseInline t, atomsInAll_parseFrom [] none t,
    fun i kind close hopen => ?_⟩
  have hinside : atomsFrom (before none t i) (t.drop i)
      = atomsFrom kind.marker.getLast? ((t.drop i).drop kind.marker.length) := by
    obtain ⟨content, rest, heq, -⟩ := openAt_spec hopen
    rw [heq, atomsFrom_marker, drop_left]
  show atomsFrom _ ((t.drop i).drop kind.marker.length) = _
  rw [← hinside, atomsFrom_of_openAt hopen, parseInline, atomsInAll_parseFrom]

end BodyFormat

end Hibari
