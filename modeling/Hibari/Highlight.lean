import Mathlib.Data.List.GetD
import Mathlib.Data.List.Sort
import Mathlib.Data.List.Chain
import Mathlib.Tactic.Common

/-!
# What a search lights up

The client marks in a message what a search has found (`highlight.ts`). It normalizes the message
as the index of the server does, looks for the terms there, and goes back to the message by a map
from positions of the normalized text to the code points that they come from. The map is made by
normalizing one code point after another.

Two things go wrong. The server normalizes the whole text, and that is not always what its code
points give one by one (`Letterwise`). And a match that ends within what a code point becomes goes
back to where the code point begins, so that it does not light up; a part may even be empty
(`company_is_dark`). Where a text is normalized letter by letter, the parts are what is asked of
them exactly if each such code point is lit by another match (`highlighted_iff`).
-/

namespace Hibari

open List

namespace Highlight

/-- A string: its UTF-16 code units. -/
abbrev Text := List UInt16

/-- A part of a text, which is marked or not. -/
structure HighlightPart where
  text : Text
  hit : Bool
  deriving DecidableEq

/-- The code points of a text. A surrogate that stands alone is one. -/
def codePoints : Text → List Text
  | [] => []
  | [c] => [[c]]
  | c :: d :: rest =>
    if 0xd800 ≤ c ∧ c ≤ 0xdbff ∧ 0xdc00 ≤ d ∧ d ≤ 0xdfff then [c, d] :: codePoints rest
    else [c] :: codePoints (d :: rest)

/-- From `start` to `stop`. -/
structure Range where
  start : ℕ
  stop : ℕ

section Source

variable (normalizeForSearch : Text → Text)

/-- For each unit of what code points become, where the code point begins. -/
def mapFrom (offset : ℕ) : List Text → List ℕ
  | [] => []
  | ch :: rest =>
    List.replicate (normalizeForSearch ch).length offset ++ mapFrom (offset + ch.length) rest

def normalizedWithMap (text : Text) : Text × List ℕ :=
  (((codePoints text).map normalizeForSearch).flatten,
    mapFrom normalizeForSearch 0 (codePoints text) ++ [text.length])

/-- Where a text is found, one position after another. -/
def indicesFrom (needle : Text) (position : ℕ) : Text → List ℕ
  | [] => []
  | c :: rest =>
    if needle.isPrefixOf (c :: rest) then position :: indicesFrom needle (position + 1) rest
    else indicesFrom needle (position + 1) rest

/-- The loop of `merge`: what has been put together last, and the ranges that are left. -/
def mergeFrom (last : Range) : List Range → List Range
  | [] => [last]
  | r :: rest =>
    if r.start ≤ last.stop then mergeFrom ⟨last.start, max last.stop r.stop⟩ rest
    else last :: mergeFrom r rest

def merge (ranges : List Range) : List Range :=
  match ranges.insertionSort fun a b => a.start < b.start ∨ a.start = b.start ∧ a.stop ≤ b.stop with
  | [] => []
  | r :: rest => mergeFrom r rest

/-- The loop that cuts a text, from a position on. -/
def partsFrom (text : Text) (position : ℕ) : List Range → List HighlightPart
  | [] => if position < text.length then [⟨text.drop position, false⟩] else []
  | r :: rest =>
    (if position < r.start then [⟨(text.take r.start).drop position, false⟩] else []) ++
      ⟨(text.take r.stop).drop r.start, true⟩ :: partsFrom text r.stop rest

def needles (terms : List Text) : List Text := (terms.map normalizeForSearch).filter (· ≠ [])

def found (text : Text) (terms : List Text) : List Range :=
  (needles normalizeForSearch terms).flatMap fun needle =>
    (indicesFrom needle 0 (normalizedWithMap normalizeForSearch text).1).map fun k =>
      ⟨(normalizedWithMap normalizeForSearch text).2.getD k 0,
        (normalizedWithMap normalizeForSearch text).2.getD (k + needle.length) 0⟩

def highlightParts (text : Text) (terms : List Text) : List HighlightPart :=
  if text.length = 0 then []
  else if (needles normalizeForSearch terms).length = 0 then [⟨text, false⟩]
  else if (found normalizeForSearch text terms).length = 0 then [⟨text, false⟩]
  else partsFrom text 0 (merge (found normalizeForSearch text terms))

end Source

/-! ## What is asked of the parts -/

/-- Whether the unit at a position of the text is marked. -/
def hitAt : List HighlightPart → ℕ → Bool
  | [], _ => false
  | part :: rest, p => if p < part.text.length then part.hit else hitAt rest (p - part.text.length)

section Spec

variable (N : Text → Text) (text : Text) (terms : List Text)

/-- A term is found in a text at a position. -/
def FoundAt (norm : Text) (needle : Text) (k : ℕ) : Prop :=
  needle ∈ needles N terms ∧ needle <+: norm.drop k ∧ k < norm.length

/-- **What is asked of the parts**: they make up the text, none is empty, marked and unmarked ones
take turns, each code point is marked whose normalization is part of a match in the normalized text
– it stands behind that of what is before the code point –, and something is marked if there is a
match. -/
structure Highlighted : Prop where
  whole : ((highlightParts N text terms).map (·.text)).flatten = text
  nonempty : ∀ part ∈ highlightParts N text terms, part.text ≠ []
  turns : (highlightParts N text terms).IsChain fun a b => a.hit ≠ b.hit
  covers : ∀ before c after, codePoints text = before ++ c :: after →
    ∀ needle k, FoundAt N terms (N text) needle k → (N before.flatten).length < k + needle.length →
      k < (N (before ++ [c]).flatten).length →
      ∀ p, before.flatten.length ≤ p → p < before.flatten.length + c.length →
        hitAt (highlightParts N text terms) p = true
  lit : (∃ needle k, FoundAt N terms (N text) needle k) →
    ∃ part ∈ highlightParts N text terms, part.hit = true

/-- What code points become, one by one. -/
def letters (l : List Text) : Text := (l.map N).flatten

/-- **A text that is normalized letter by letter**, and its beginnings as far as their length goes.
-/
structure Letterwise : Prop where
  whole : N text = letters N (codePoints text)
  length : ∀ before, before <+: codePoints text →
    (N before.flatten).length = (letters N before).length

/-- **A code point in which a match ends is lit by another one**, which goes on to its end. -/
def EndsCovered : Prop :=
  ∀ before c after, codePoints text = before ++ c :: after →
    ∀ needle k, FoundAt N terms (letters N (codePoints text)) needle k →
      (letters N before).length < k + needle.length →
      k + needle.length < (letters N (before ++ [c])).length →
      ∃ needle' k', FoundAt N terms (letters N (codePoints text))
          needle' k' ∧ k' < (letters N (before ++ [c])).length ∧
        (letters N (before ++ [c])).length ≤ k' + needle'.length

end Spec

/-! ## Ranges -/

variable {last r m : Range} {ranges : List Range} {text : Text} {p position bound : ℕ}

/-- A position is in one of some ranges. -/
def Covers (ranges : List Range) (p : ℕ) : Prop := ∃ r ∈ ranges, r.start ≤ p ∧ p < r.stop

/-- Ranges of a text, none before where it begins. -/
def Within (bound : ℕ) (ranges : List Range) : Prop :=
  ∀ r ∈ ranges, r.start ≤ r.stop ∧ r.stop ≤ bound

/-- **What merging does** to ranges in order: what they cover stays, they get gaps between them,
and each begins where one began. -/
theorem mergeFrom_spec : ∀ {ranges : List Range} {last : Range}, Within bound (last :: ranges) →
    (last :: ranges).Pairwise (fun a b => a.start ≤ b.start) →
    (∀ p, Covers (mergeFrom last ranges) p ↔ Covers (last :: ranges) p) ∧
    (mergeFrom last ranges).Pairwise (fun a b => a.stop < b.start) ∧
    Within bound (mergeFrom last ranges) ∧
    ∀ m ∈ mergeFrom last ranges, ∃ r ∈ last :: ranges, r.start = m.start
  | [], last, hwithin, _ =>
    ⟨fun _ => .rfl, pairwise_singleton _ _, hwithin, fun m hm => ⟨m, hm, rfl⟩⟩
  | r :: rest, last, hwithin, hsorted => by
    obtain ⟨hlast, hrest⟩ := pairwise_cons.mp hsorted
    obtain ⟨hwlast, hwr, hwrest⟩ : _ ∧ _ ∧ Within bound rest := by
      simpa only [Within, forall_mem_cons] using hwithin
    have hle := hlast r (.head _)
    unfold mergeFrom
    split
    · next htouch =>
      have hwithin' : Within bound (⟨last.start, max last.stop r.stop⟩ :: rest) :=
        forall_mem_cons.mpr ⟨by simp only; omega, hwrest⟩
      obtain ⟨hcovers, hgaps, hin, hstarts⟩ := mergeFrom_spec hwithin'
        (pairwise_cons.mpr ⟨fun s hs => hlast s (.tail _ hs), (pairwise_cons.mp hrest).2⟩)
      refine ⟨fun p => (hcovers p).trans ?_, hgaps, hin, fun m hm => ?_⟩
      · -- the two touch, so that nothing is between them
        simp only [Covers, exists_mem_cons_iff]
        constructor
        · rintro (h | h)
          · by_cases hp : p < last.stop
            · exact .inl ⟨h.1, hp⟩
            · exact .inr (.inl (by omega))
          · exact .inr (.inr h)
        · rintro (h | h | h)
          · exact .inl (by omega)
          · exact .inl (by omega)
          · exact .inr h
      · obtain ⟨s, hs, heq⟩ := hstarts m hm
        rcases mem_cons.mp hs with rfl | hs
        · exact ⟨last, .head _, heq⟩
        · exact ⟨s, .tail _ (.tail _ hs), heq⟩
    · next hgap =>
      obtain ⟨hcovers, hgaps, hin, hstarts⟩ :=
        mergeFrom_spec (forall_mem_cons.mpr ⟨hwr, hwrest⟩) hrest
      refine ⟨fun p => ?_, pairwise_cons.mpr ⟨fun m hm => ?_, hgaps⟩,
        forall_mem_cons.mpr ⟨hwlast, hin⟩, fun m hm => ?_⟩
      · have hrest := hcovers p
        simp only [Covers, exists_mem_cons_iff] at hrest ⊢
        rw [hrest]
      · obtain ⟨s, hs, heq⟩ := hstarts m hm
        rcases mem_cons.mp hs with rfl | hs
        · omega
        · have hrs := (pairwise_cons.mp hrest).1 s hs
          omega
      · rcases mem_cons.mp hm with rfl | hm
        · exact ⟨m, .head _, rfl⟩
        · obtain ⟨s, hs, heq⟩ := hstarts m hm
          exact ⟨s, .tail _ hs, heq⟩

theorem mergeFrom_ne_nil : ∀ (ranges : List Range) (last : Range), mergeFrom last ranges ≠ []
  | [], _ => cons_ne_nil _ _
  | r :: rest, last => by
    unfold mergeFrom
    split
    · exact mergeFrom_ne_nil rest _
    · exact cons_ne_nil _ _

theorem merge_spec (hwithin : Within bound ranges) :
    (∀ p, Covers (merge ranges) p ↔ Covers ranges p) ∧
    (merge ranges).Pairwise (fun a b => a.stop < b.start) ∧ Within bound (merge ranges) ∧
    (∀ m ∈ merge ranges, ∃ r ∈ ranges, r.start = m.start) ∧ (merge ranges = [] → ranges = []) := by
  let le : Range → Range → Prop := fun a b => a.start < b.start ∨ a.start = b.start ∧
    a.stop ≤ b.stop
  have : Std.Total le := ⟨fun a b => by simp only [le]; omega⟩
  have : IsTrans Range le := ⟨fun a b c => by simp only [le]; omega⟩
  have hperm := perm_insertionSort le ranges
  have hsorted : (ranges.insertionSort le).Pairwise fun a b => a.start ≤ b.start :=
    (pairwise_insertionSort le ranges).imp fun {a b} h => by simp only [le] at h; omega
  have hcovers : ∀ p, Covers (ranges.insertionSort le) p ↔ Covers ranges p := fun p => by
    simp only [Covers, hperm.mem_iff]
  have hwithin' : Within bound (ranges.insertionSort le) := fun r hr =>
    hwithin r (hperm.mem_iff.mp hr)
  show (∀ p, Covers (match ranges.insertionSort le with
    | [] => []
    | r :: rest => mergeFrom r rest) p ↔ _) ∧ _
  unfold merge
  cases hsort : ranges.insertionSort le with
  | nil =>
    rw [hsort] at hcovers
    obtain rfl : ranges = [] := List.Perm.nil_eq (hsort ▸ hperm) |>.symm
    simp [Within]
  | cons r rest =>
    rw [hsort] at hcovers hsorted hwithin'
    obtain ⟨hmerge, hgaps, hin, hstarts⟩ := mergeFrom_spec hwithin' hsorted
    refine ⟨fun p => (hmerge p).trans (hcovers p), hgaps, hin, fun m hm => ?_, fun hnil => ?_⟩
    · obtain ⟨s, hs, heq⟩ := hstarts m hm
      exact ⟨s, hperm.mem_iff.mp (hsort ▸ hs), heq⟩
    · exact absurd hnil (mergeFrom_ne_nil rest r)

/-! ## Parts -/

theorem length_slice {start stop : ℕ} (h : stop ≤ text.length) :
    ((text.take stop).drop start).length = stop - start := by
  rw [length_drop, length_take, min_eq_left h]

theorem slice_append {start stop : ℕ} (h : start ≤ stop) (hstop : stop ≤ text.length) :
    (text.take stop).drop start ++ text.drop stop = text.drop start := by
  conv_rhs => rw [← take_append_drop stop text]
  rw [drop_append_of_le_length (by rw [length_take]; omega)]

/-- **What the parts are**, cut along ranges with gaps between them. -/
theorem partsFrom_spec : ∀ {ranges : List Range} {position : ℕ}, position ≤ text.length →
    Within text.length ranges → ranges.Pairwise (fun a b => a.stop < b.start) →
    (∀ r ∈ ranges, position ≤ r.start) →
    ((partsFrom text position ranges).map (·.text)).flatten = text.drop position ∧
    (∀ p, position ≤ p → p < text.length →
      (hitAt (partsFrom text position ranges) (p - position) = true ↔ Covers ranges p)) ∧
    (partsFrom text position ranges).IsChain (fun a b => a.hit ≠ b.hit) ∧
    ((∀ r ∈ ranges, position < r.start) →
      ∀ part ∈ (partsFrom text position ranges).head?, part.hit = false) ∧
    ((∀ r ∈ ranges, r.start < r.stop) → ∀ part ∈ partsFrom text position ranges, part.text ≠ [])
  | [], position, hposition, _, _, _ => by
    unfold partsFrom
    split
    · next hlt =>
      refine ⟨by simp, fun p hp hlen => ?_, isChain_singleton _, by simp, by simpa using hlt⟩
      simp [hitAt, Covers]
    · next hge =>
      refine ⟨?_, fun p hp hlen => absurd hlen (by omega), isChain_nil, by simp, by simp⟩
      rw [drop_eq_nil_of_le (by omega)]
      rfl
  | r :: rest, position, hposition, hwithin, hgaps, hstarts => by
    obtain ⟨⟨hvalid, hstop⟩, hwrest⟩ := forall_mem_cons.mp hwithin
    obtain ⟨hafter, hgaps⟩ := pairwise_cons.mp hgaps
    obtain ⟨hwhole, hhits, hchain, hhead, hnonempty⟩ :=
      partsFrom_spec hstop hwrest hgaps fun s hs => (hafter s hs).le
    have hle := hstarts r (.head _)
    have hlength : ((text.take r.stop).drop r.start).length = r.stop - r.start := length_slice hstop
    -- from where the range begins
    have hwhole' : (text.take r.stop).drop r.start ++
        ((partsFrom text r.stop rest).map (·.text)).flatten = text.drop r.start := by
      rw [hwhole, slice_append hvalid hstop]
    have hhits' : ∀ p, r.start ≤ p → p < text.length →
        (hitAt (⟨(text.take r.stop).drop r.start, true⟩ :: partsFrom text r.stop rest)
          (p - r.start) =
          true ↔ Covers (r :: rest) p) := by
      intro p hp hlen
      rw [hitAt, hlength, Covers, exists_mem_cons_iff]
      by_cases hin : p < r.stop
      · rw [if_pos (by omega)]
        exact iff_of_true rfl (.inl ⟨hp, hin⟩)
      · rw [if_neg (by omega), show p - r.start - (r.stop - r.start) = p - r.stop by omega,
          hhits p (by omega) hlen]
        exact ⟨.inr, fun h => h.resolve_left fun h => hin h.2⟩
    have hchain' : (⟨(text.take r.stop).drop r.start, true⟩ :: partsFrom text r.stop rest).IsChain
        (fun a b : HighlightPart => a.hit ≠ b.hit) :=
      isChain_cons.mpr ⟨fun part hpart => by simp [hhead hafter part hpart], hchain⟩
    have hnonempty' : (∀ s ∈ r :: rest, s.start < s.stop) → (text.take r.stop).drop r.start ≠ [] ∧
        ∀ part ∈ partsFrom text r.stop rest, part.text ≠ [] := fun h => by
      obtain ⟨hr, hrest⟩ := forall_mem_cons.mp h
      exact ⟨ne_nil_of_length_pos (by omega), hnonempty hrest⟩
    unfold partsFrom
    split
    · next hlt =>
      have hgap : ((text.take r.start).drop position).length = r.start - position :=
        length_slice (by omega)
      refine ⟨?_, fun p hp hlen => ?_, isChain_cons_cons.mpr ⟨by simp, hchain'⟩, by simp,
        fun h => forall_mem_cons.mpr ⟨ne_nil_of_length_pos (by simp only; omega),
          forall_mem_cons.mpr (hnonempty' h)⟩⟩
      · show (text.take r.start).drop position ++ ((text.take r.stop).drop r.start ++ _) = _
        rw [hwhole', slice_append hle (by omega)]
      · show hitAt (⟨(text.take r.start).drop position, false⟩ :: _) (p - position) = true ↔ _
        rw [hitAt, hgap]
        by_cases hin : p < r.start
        · rw [if_pos (by omega)]
          refine iff_of_false Bool.false_ne_true ?_
          rintro ⟨s, hs, hsp, -⟩
          rcases mem_cons.mp hs with rfl | hs
          · omega
          · have := hafter s hs
            omega
        · rw [if_neg (by omega), show p - position - (r.start - position) = p - r.start by omega]
          exact hhits' p (by omega) hlen
    · next hge =>
      obtain rfl : position = r.start := by omega
      exact ⟨hwhole', hhits', hchain', fun h => absurd (h r (.head _)) (lt_irrefl _),
        fun h => forall_mem_cons.mpr (hnonempty' h)⟩

/-! ## The map -/

theorem flatten_codePoints : ∀ text : Text, (codePoints text).flatten = text
  | [] => rfl
  | [_] => rfl
  | c :: d :: rest => by
    unfold codePoints
    split
    · rw [flatten_cons, flatten_codePoints rest]
      rfl
    · rw [flatten_cons, flatten_codePoints (d :: rest)]
      rfl

theorem codePoints_ne_nil : ∀ (text : Text), ∀ c ∈ codePoints text, c ≠ []
  | [], _, h => nomatch h
  | [_], _, h => by
    rw [mem_singleton.mp h]
    exact cons_ne_nil _ _
  | c :: d :: rest, _, h => by
    unfold codePoints at h
    split at h
    · rcases mem_cons.mp h with rfl | h
      · exact cons_ne_nil _ _
      · exact codePoints_ne_nil rest _ h
    · rcases mem_cons.mp h with rfl | h
      · exact cons_ne_nil _ _
      · exact codePoints_ne_nil (d :: rest) _ h

variable {N : Text → Text}

theorem length_mapFrom (l : List Text) (offset : ℕ) :
    (mapFrom N offset l).length = (letters N l).length := by
  induction l generalizing offset with
  | nil => rfl
  | cons c l ih => simp [mapFrom, letters, ih]

/-- What the map has of code points lies between where they begin and where they end. -/
theorem mem_mapFrom {l : List Text} {offset x : ℕ} (h : x ∈ mapFrom N offset l) :
    offset ≤ x ∧ x ≤ offset + l.flatten.length := by
  induction l generalizing offset with
  | nil => nomatch h
  | cons c l ih =>
    rw [flatten_cons, length_append]
    rcases mem_append.mp h with h | h
    · rw [eq_of_mem_replicate h]
      omega
    · have := ih h
      omega

theorem pairwise_mapFrom (l : List Text) (offset : ℕ) : (mapFrom N offset l).Pairwise (· ≤ ·) := by
  induction l generalizing offset with
  | nil => exact List.Pairwise.nil
  | cons c l ih =>
    refine pairwise_append.mpr ⟨pairwise_replicate.mpr (.inr le_rfl), ih _, ?_⟩
    intro x hx y hy
    rw [eq_of_mem_replicate hx]
    have := (mem_mapFrom hy).1
    omega

theorem mapFrom_append (l l' : List Text) (offset : ℕ) : mapFrom N offset (l ++ l') =
    mapFrom N offset l ++ mapFrom N (offset + l.flatten.length) l' := by
  induction l generalizing offset with
  | nil => rfl
  | cons c l ih =>
    rw [cons_append, mapFrom, ih, mapFrom, flatten_cons, length_append, append_assoc, Nat.add_assoc]

theorem letters_append (l l' : List Text) : letters N (l ++ l') = letters N l ++ letters N l' := by
  simp [letters]

/-- Where a position of what code points become comes from. -/
def origin (N : Text → Text) (l : List Text) (k : ℕ) : ℕ :=
  (mapFrom N 0 l ++ [l.flatten.length]).getD k 0

section Origin

variable {l before after : List Text} {c : Text} {k : ℕ}

/-- **A position before the end of a code point** comes from there or from before. -/
theorem origin_le (hl : l = before ++ c :: after) (hk : k < (letters N (before ++ [c])).length) :
    origin N l k ≤ before.flatten.length := by
  have hsplit : l = (before ++ [c]) ++ after := by simp [hl]
  have hlen : k < (mapFrom N 0 (before ++ [c])).length := by
    rwa [length_mapFrom]
  rw [origin, hsplit, mapFrom_append, append_assoc, getD_append _ _ _ _ hlen,
    getD_eq_getElem _ _ hlen]
  have hbound : ∀ x ∈ mapFrom N 0 (before ++ [c]), x ≤ before.flatten.length := by
    intro x hx
    rw [mapFrom_append] at hx
    rcases mem_append.mp hx with hx | hx
    · simpa using (mem_mapFrom hx).2
    · rcases mem_append.mp hx with hx | hx
      · simp only [eq_of_mem_replicate hx, Nat.zero_add, le_refl]
      · nomatch hx
  exact hbound _ (getElem_mem hlen)

/-- **A position beyond code points** comes from behind them. -/
theorem le_origin {l₁ l₂ : List Text} (hl : l = l₁ ++ l₂) (hk : (letters N l₁).length ≤ k)
    (hend : k ≤ (letters N l).length) :
    l₁.flatten.length ≤ origin N l k := by
  have hlen : (mapFrom N 0 l₁).length ≤ k := by rwa [length_mapFrom]
  rw [hl, letters_append, length_append] at hend
  rw [origin, hl, mapFrom_append, append_assoc, getD_append_right _ _ _ _ hlen,
    Nat.zero_add, length_mapFrom]
  have hlast : k - (letters N l₁).length <
      (mapFrom N l₁.flatten.length l₂ ++ [(l₁ ++ l₂).flatten.length]).length := by
    rw [length_append, length_mapFrom, length_singleton]
    omega
  rw [getD_eq_getElem _ _ hlast]
  rcases mem_append.mp (getElem_mem hlast) with hmem | hmem
  · exact (mem_mapFrom hmem).1
  · rw [mem_singleton.mp hmem, flatten_append, length_append]
    exact Nat.le_add_right _ _

/-- Each position comes from a code point. -/
theorem exists_origin (hk : k < (letters N l).length) :
    ∃ before c after, l = before ++ c :: after ∧ (letters N before).length ≤ k ∧
      k < (letters N (before ++ [c])).length := by
  induction l generalizing k with
  | nil => nomatch hk
  | cons x l ih =>
    have hcons : ∀ l', (letters N (x :: l')).length =
        (N x).length + (letters N l').length := fun l' => by
      simp [letters]
    by_cases hx : k < (N x).length
    · exact ⟨[], x, l, rfl, Nat.zero_le _, by rwa [nil_append, hcons, letters,
        map_nil, flatten_nil, length_nil, Nat.add_zero]⟩
    · rw [hcons] at hk
      obtain ⟨before, c, after, rfl, hle, hlt⟩ := @ih (k - (N x).length) (by omega)
      refine ⟨x :: before, c, after, rfl, ?_, ?_⟩
      · rw [hcons]
        omega
      · rw [cons_append, hcons]
        omega

end Origin

/-! ## Matches -/

section Matches

variable {terms : List Text} {needle : Text} {k : ℕ}

theorem mem_indicesFrom {needle norm : Text} {position k : ℕ} :
    k ∈ indicesFrom needle position norm ↔
      ∃ i < norm.length, k = position + i ∧ needle <+: norm.drop i := by
  induction norm generalizing position with
  | nil => simp [indicesFrom]
  | cons c norm ih =>
    have hstep : (∃ i < (c :: norm).length, k = position + i ∧ needle <+: (c :: norm).drop i) ↔
        (k = position ∧ needle <+: c :: norm) ∨
          ∃ i < norm.length, k = position + 1 + i ∧ needle <+: norm.drop i := by
      constructor
      · rintro ⟨_ | i, hi, rfl, h⟩
        · exact .inl ⟨rfl, h⟩
        · exact .inr ⟨i, Nat.lt_of_succ_lt_succ hi, by omega, h⟩
      · rintro (⟨rfl, h⟩ | ⟨i, hi, rfl, h⟩)
        · exact ⟨0, Nat.succ_pos _, rfl, h⟩
        · exact ⟨i + 1, Nat.succ_lt_succ hi, by omega, h⟩
    rw [hstep]
    unfold indicesFrom
    split
    · next hfound => rw [mem_cons, ih, and_iff_left <| isPrefixOf_iff_prefix.mp hfound]
    · next hnot =>
      rw [ih, or_iff_right fun h => hnot <| isPrefixOf_iff_prefix.mpr h.2]

/-- The ranges that are found are those of the matches. -/
theorem mem_found {r : Range} : r ∈ found N text terms ↔
    ∃ needle k, FoundAt N terms (letters N (codePoints text)) needle k ∧
      r = ⟨origin N (codePoints text) k, origin N (codePoints text) (k + needle.length)⟩ := by
  have hmap : (normalizedWithMap N text).2 =
      mapFrom N 0 (codePoints text) ++ [(codePoints text).flatten.length] := by
    rw [flatten_codePoints]
    rfl
  simp only [found, mem_flatMap, mem_map, hmap]
  constructor
  · rintro ⟨needle, hneedle, k, hk, rfl⟩
    obtain ⟨i, hi, rfl, hfound⟩ := mem_indicesFrom.mp hk
    rw [Nat.zero_add]
    exact ⟨needle, i, ⟨hneedle, hfound, hi⟩, rfl⟩
  · rintro ⟨needle, k, ⟨hneedle, hfound, hk⟩, rfl⟩
    exact ⟨needle, hneedle, k, mem_indicesFrom.mpr ⟨k, hk, (Nat.zero_add k).symm, hfound⟩, rfl⟩

theorem FoundAt.le {norm : Text} (h : FoundAt N terms norm needle k) :
    k + needle.length ≤ norm.length ∧ 0 < needle.length := by
  obtain ⟨hneedle, hfound, hk⟩ := h
  have hle := hfound.length_le
  rw [length_drop] at hle
  exact ⟨by omega, length_pos_iff.mpr (of_decide_eq_true (mem_filter.mp hneedle).2)⟩

/-- **A code point is lit by a match that begins before its end and goes on to there.** -/
theorem covers_found_iff {before after : List Text} {c : Text} {p : ℕ}
    (hsplit : codePoints text = before ++ c :: after) (hstart : before.flatten.length ≤ p)
    (hstop : p < before.flatten.length + c.length) :
    Covers (found N text terms) p ↔ ∃ needle k, FoundAt N terms (letters N (codePoints text))
          needle k ∧ k < (letters N (before ++ [c])).length ∧
        (letters N (before ++ [c])).length ≤ k + needle.length := by
  have hsplit' : codePoints text = (before ++ [c]) ++ after := by simp [hsplit]
  have hflat : (before ++ [c]).flatten.length = before.flatten.length + c.length := by simp
  constructor
  · rintro ⟨r, hr, hle, hlt⟩
    obtain ⟨needle, k, hfound, rfl⟩ := mem_found.mp hr
    refine ⟨needle, k, hfound, ?_, ?_⟩
    · by_contra hge
      have := le_origin hsplit' (not_lt.mp hge) hfound.2.2.le
      simp only at hle
      omega
    · by_contra hgt
      have := origin_le hsplit (not_le.mp hgt)
      simp only at hlt
      omega
  · rintro ⟨needle, k, hfound, hbegins, hends⟩
    have hle := origin_le hsplit hbegins
    have hlt := le_origin hsplit' hends hfound.le.1
    exact ⟨_, mem_found.mpr ⟨needle, k, hfound, rfl⟩, by simp only; omega, by simp only; omega⟩

theorem within_found (N : Text → Text) (text : Text) (terms : List Text) :
    Within text.length (found N text terms) := by
  intro r hr
  obtain ⟨needle, k, hfound, rfl⟩ := mem_found.mp hr
  obtain ⟨hle, hpos⟩ := hfound.le
  have hlen : (mapFrom N 0 (codePoints text) ++ [(codePoints text).flatten.length]).length =
        (letters N (codePoints text)).length + 1 := by
    rw [length_append, length_mapFrom, length_singleton]
  have hsorted : (mapFrom N 0 (codePoints text) ++
      [(codePoints text).flatten.length]).Pairwise (· ≤ ·) := by
    refine pairwise_append.mpr ⟨pairwise_mapFrom _ _, pairwise_singleton _ _, ?_⟩
    intro x hx y hy
    rw [mem_singleton.mp hy]
    simpa using (mem_mapFrom hx).2
  constructor
  · show origin _ _ _ ≤ origin _ _ _
    rw [origin, origin, getD_eq_getElem _ _ (by omega), getD_eq_getElem _ _ (by omega)]
    exact pairwise_iff_getElem.mp hsorted _ _ _ _ (by omega)
  · show origin _ _ _ ≤ _
    have hlast : k + needle.length < (mapFrom N 0 (codePoints text) ++
        [(codePoints text).flatten.length]).length := by omega
    rw [origin, getD_eq_getElem _ _ hlast]
    rcases mem_append.mp (getElem_mem hlast) with hmem | hmem
    · exact (mem_mapFrom hmem).2.trans (by rw [Nat.zero_add, flatten_codePoints])
    · rw [mem_singleton.mp hmem, flatten_codePoints]

theorem highlightParts_eq : highlightParts N text terms =
    partsFrom text 0 (merge (found N text terms)) := by
  have hnone : found N text terms = [] → partsFrom text 0 (merge (found N text terms)) =
        if 0 < text.length then [⟨text, false⟩] else [] := fun h => by
    rw [h]
    rfl
  unfold highlightParts
  split_ifs with htext hneedles hfound
  · obtain rfl := eq_nil_of_length_eq_zero htext
    rw [hnone (by simp [found, normalizedWithMap, codePoints, indicesFrom])]
    rfl
  · rw [hnone (by simp [found, eq_nil_of_length_eq_zero hneedles]),
      if_pos (Nat.pos_of_ne_zero htext)]
  · rw [hnone (eq_nil_of_length_eq_zero hfound), if_pos (Nat.pos_of_ne_zero htext)]
  · rfl

theorem exists_hit {ranges : List Range} (position : ℕ) (h : ranges ≠ []) :
    ∃ part ∈ partsFrom text position ranges, part.hit = true := by
  cases ranges with
  | nil => exact absurd rfl h
  | cons r rest =>
    exact ⟨⟨(text.take r.stop).drop r.start, true⟩, mem_append_right _ (.head _), rfl⟩

/-- **Where a text is normalized letter by letter, the parts are what is asked of them exactly if
each code point in which a match ends is lit by one that goes on to its end.** -/
theorem highlighted_iff (h : Letterwise N text) :
    Highlighted N text terms ↔ EndsCovered N text terms := by
  obtain ⟨hcovers, hgaps, hwithin, hstarts, hnil⟩ :=
    merge_spec (within_found N text terms)
  obtain ⟨hwhole, hhits, hchain, -, hnonempty⟩ :=
    partsFrom_spec (Nat.zero_le text.length) hwithin hgaps fun r _ => Nat.zero_le _
  rw [← highlightParts_eq] at hwhole hhits hchain hnonempty
  constructor
  · intro hh before c after hsplit needle k hfound hbegins hends
    have hmem : c ∈ codePoints text := by
      rw [hsplit]
      exact mem_append_right _ (.head _)
    have hc := length_pos_iff.mpr (codePoints_ne_nil text c hmem)
    have hlength := h.length before ⟨c :: after, hsplit.symm⟩
    have hlength' := h.length (before ++ [c]) ⟨after, by simp [hsplit]⟩
    have hhit := hh.covers before c after hsplit needle k (h.whole ▸ hfound) (by omega) (by omega)
      before.flatten.length le_rfl (by omega)
    have hlt : before.flatten.length < text.length := by
      rw [← flatten_codePoints text, hsplit]
      simp only [flatten_append, flatten_cons, length_append]
      omega
    exact (covers_found_iff hsplit le_rfl (by omega)).mp
      ((hcovers _).mp ((hhits _ (Nat.zero_le _) hlt).mp hhit))
  · intro hends
    have hlit : ∀ {before c after}, codePoints text = before ++ c :: after → ∀ {needle k},
        FoundAt N terms (letters N (codePoints text)) needle k →
        (letters N before).length < k + needle.length →
        k < (letters N (before ++ [c])).length →
        ∀ p, before.flatten.length ≤ p → p < before.flatten.length + c.length →
          Covers (merge (found N text terms)) p := by
      intro before c after hsplit needle k hfound hafter hbefore p hp hp'
      refine (hcovers p).mpr ((covers_found_iff hsplit hp hp').mpr ?_)
      by_cases hlong : (letters N (before ++ [c])).length ≤ k + needle.length
      · exact ⟨needle, k, hfound, hbefore, hlong⟩
      · exact hends before c after hsplit needle k hfound hafter (not_le.mp hlong)
    refine ⟨hwhole, hnonempty fun m hm => ?_, hchain, ?_, fun hmatch => ?_⟩
    · -- where it begins, a code point begins that is lit, and only one range has it
      obtain ⟨r, hr, hstart⟩ := hstarts m hm
      obtain ⟨needle, k, hfound, rfl⟩ := mem_found.mp hr
      obtain ⟨before, c, after, hsplit, hle, hlt⟩ := exists_origin hfound.2.2
      have hbegin : m.start = before.flatten.length := by
        rw [← hstart]
        exact le_antisymm (origin_le hsplit hlt) (le_origin hsplit hle hfound.2.2.le)
      have hc := length_pos_iff.mpr (codePoints_ne_nil text c
        (hsplit ▸ mem_append_right _ (.head _)))
      have hpos := hfound.le.2
      obtain ⟨m', hm', hle', hlt'⟩ := hlit hsplit hfound (by omega) hlt m.start hbegin.ge (by omega)
      by_contra hempty
      have hne : m ≠ m' := fun heq => hempty (heq ▸ by omega)
      have hvalid := (hwithin m hm).1
      have : Std.Symm fun a b : Range => a.stop < b.start ∨ b.stop < a.start := ⟨fun _ _ => Or.symm⟩
      have hapart : (merge (found N text terms)).Pairwise
          fun a b => a.stop < b.start ∨ b.stop < a.start := hgaps.imp Or.inl
      rcases hapart.forall hm hm' hne with hgap | hgap <;> omega
    · intro before c after hsplit needle k hfound hafter hbefore p hp hp'
      have hlength := h.length before ⟨c :: after, hsplit.symm⟩
      have hlength' := h.length (before ++ [c]) ⟨after, by simp [hsplit]⟩
      have hlt : p < text.length := by
        rw [← flatten_codePoints text, hsplit]
        simp only [flatten_append, flatten_cons, length_append]
        omega
      exact (hhits p (Nat.zero_le _) hlt).mpr
        (hlit hsplit (h.whole ▸ hfound) (by omega) (by omega) p hp hp')
    · obtain ⟨needle, k, hfound⟩ := hmatch
      rw [highlightParts_eq]
      refine exists_hit 0 fun hmerge => ?_
      have hr := mem_found.mpr ⟨needle, k, h.whole ▸ hfound, rfl⟩
      rw [hnil hmerge] at hr
      nomatch hr

end Matches

/-! ### Companies -/

/-- `㈱` becomes `(株)`, and nothing else changes. -/
def company (text : Text) : Text :=
  text.flatMap fun c => if c = 0x3231 then [0x28, 0x682a, 0x29] else [c]

theorem letterwise_flatMap (f : UInt16 → Text) (text : Text) : Letterwise (·.flatMap f) text := by
  have hletters : ∀ l : List Text, l.flatten.flatMap f = letters (·.flatMap f) l := fun l => by
    simp only [letters, List.flatMap, map_flatten, map_map, flatten_flatten]
    rfl
  exact ⟨by rw [← hletters, flatten_codePoints], fun before _ => by rw [← hletters]⟩

/-- The name of a company in brackets, which is lit. -/
theorem highlighted_iff_company : Highlighted company [0x3231, 0x41] [[0x28, 0x682a, 0x29]] ↔
    EndsCovered company [0x3231, 0x41] [[0x28, 0x682a, 0x29]] :=
  highlighted_iff (letterwise_flatMap _ _)

/-- `か` and the mark of a voiced sound become `が` together. -/
def voiced (text : Text) : Text := if text = [0x304b, 0x3099] then [0x304c] else text

/-- **A match that nothing shows**: in `㈱` there is `株`, and the part that is marked is empty; in
`が` written with two code points there is `が`, and no part is marked. -/
theorem company_is_dark : ¬ Highlighted company [0x3231] [[0x682a]] ∧
    ¬ Highlighted voiced [0x304b, 0x3099] [[0x304c]] := by
  refine ⟨fun h => h.nonempty ⟨[], true⟩ (by decide) rfl, fun h => ?_⟩
  obtain ⟨part, hpart, hhit⟩ := h.lit ⟨[0x304c], 0, by decide, by decide, by decide⟩
  have hnone : ∀ part ∈ highlightParts voiced [0x304b, 0x3099] [[0x304c]], part.hit = false := by
    decide
  exact Bool.false_ne_true ((hnone part hpart).symm.trans hhit)

end Highlight

end Hibari
