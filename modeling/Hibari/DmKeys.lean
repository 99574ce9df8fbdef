import Hibari.Message

/-!
# The key of a direct message

Two users have one room for their direct messages in a workspace. What is unique is its key, a text
made of the texts of both users, the smaller one first; and the peer of a user is read off it. How
the id of a user is written, and read again, is up to a library, and stands here for two functions
of which only this is used: what was written is read back, and no colon is written.
-/

namespace Hibari

open List

/-- Ids are of 128 bits. -/
def Ulid.IsId (u : Ulid) : Prop := u < 2 ^ 128

namespace DmKeys

section Key

-- `ulid.ULID.String` and `ulid.ParseStrict`
variable (ulidString : Ulid → List Char) (parseStrict : List Char → Option Ulid)

/-- `dmKey`: the texts of both, sorted and put together. -/
def dmKey (a b : Ulid) : List Char :=
  match [ulidString a, ulidString b].insertionSort (· ≤ ·) with
  | [x, y] => x ++ ':' :: y
  | _ => []

/-- `strings.Cut(key, ":")`. -/
def cut (key : List Char) : Option (List Char × List Char) :=
  match key.dropWhile (· ≠ ':') with
  | [] => none
  | _ :: after => some (key.takeWhile (· ≠ ':'), after)

/-- `dmPeerID`: of the two users of a key, the one that is not the actor. -/
def dmPeerID (key : List Char) (actor : Ulid) : Option Ulid :=
  (cut key).bind fun (a, b) => parseStrict (if a = ulidString actor then b else a)

end Key

variable {ulidString : Ulid → List Char} {parseStrict : List Char → Option Ulid} {a b c d : Ulid}

theorem dmKey_eq : dmKey ulidString a b = if ulidString a ≤ ulidString b then
    ulidString a ++ ':' :: ulidString b else ulidString b ++ ':' :: ulidString a := by
  unfold dmKey
  show (match List.orderedInsert (· ≤ ·) (ulidString a) [ulidString b] with
    | [x, y] => x ++ ':' :: y
    | _ => []) = _
  rw [orderedInsert_cons]
  by_cases hab : ulidString a ≤ ulidString b
  · rw [if_pos hab, if_pos hab]
  · rw [if_neg hab, if_neg hab]
    rfl

/-- **The order of the users does not matter.** -/
theorem dmKey_comm : dmKey ulidString a b = dmKey ulidString b a := by
  rw [dmKey_eq, dmKey_eq]
  by_cases hab : ulidString a ≤ ulidString b
  · by_cases hba : ulidString b ≤ ulidString a
    · rw [if_pos hab, if_pos hba, le_antisymm hab hba]
    · rw [if_pos hab, if_neg hba]
  · rw [if_neg hab, if_pos (le_of_not_ge hab)]

theorem cut_append {x y : List Char} (hx : ':' ∉ x) : cut (x ++ ':' :: y) = some (x, y) := by
  have hall : ∀ c ∈ x, decide (c ≠ ':') = true := fun c hc =>
    decide_eq_true fun heq => hx (heq ▸ hc)
  unfold cut
  rw [dropWhile_append_of_pos hall, takeWhile_append_of_pos hall,
    dropWhile_cons_of_neg (by decide), takeWhile_cons_of_neg (by decide),
    append_nil]

/-- One of the two users comes first, and the key can be taken apart again. -/
theorem cut_dmKey (ha : ':' ∉ ulidString a) (hb : ':' ∉ ulidString b) :
    cut (dmKey ulidString a b) = some (ulidString a, ulidString b) ∨
      cut (dmKey ulidString a b) = some (ulidString b, ulidString a) := by
  rw [dmKey_eq]
  split
  · exact .inl (cut_append ha)
  · exact .inr (cut_append hb)

section Read

variable (hparse : ∀ u, u.IsId → parseStrict (ulidString u) = some u)
  (hcolon : ∀ u, u.IsId → ':' ∉ ulidString u)

include hparse

theorem ulidString_injOn (ha : a.IsId) (hb : b.IsId) (h : ulidString a = ulidString b) : a = b :=
  Option.some.inj ((hparse a ha).symm.trans (h ▸ hparse b hb))

include hcolon

/-- **Two keys are the same only of the same two users.** -/
theorem eq_of_dmKey_eq (ha : a.IsId) (hb : b.IsId) (hc : c.IsId) (hd : d.IsId)
    (h : dmKey ulidString a b = dmKey ulidString c d) : a = c ∧ b = d ∨ a = d ∧ b = c := by
  have hinj : ∀ {x y}, x.IsId → y.IsId → ulidString x = ulidString y → x = y :=
    ulidString_injOn hparse
  obtain hab | hab := cut_dmKey (hcolon a ha) (hcolon b hb) <;>
    obtain hcd | hcd := cut_dmKey (hcolon c hc) (hcolon d hd) <;>
    obtain ⟨hfst, hsnd⟩ :=
      Prod.mk.inj (Option.some.inj (hab.symm.trans ((congrArg cut h).trans hcd)))
  · exact .inl ⟨hinj ha hc hfst, hinj hb hd hsnd⟩
  · exact .inr ⟨hinj ha hd hfst, hinj hb hc hsnd⟩
  · exact .inr ⟨hinj ha hd hsnd, hinj hb hc hfst⟩
  · exact .inl ⟨hinj ha hc hsnd, hinj hb hd hfst⟩

/-- **The other user of a key.** -/
theorem dmPeerID_dmKey (ha : a.IsId) (hb : b.IsId) (hne : a ≠ b) :
    dmPeerID ulidString parseStrict (dmKey ulidString a b) a = some b := by
  unfold dmPeerID
  obtain hcut | hcut := cut_dmKey (hcolon a ha) (hcolon b hb)
  · rw [hcut, Option.bind_some]
    show parseStrict (if ulidString a = ulidString a then ulidString b else ulidString a) = some b
    rw [if_pos rfl]
    exact hparse b hb
  · rw [hcut, Option.bind_some]
    show parseStrict (if ulidString b = ulidString a then ulidString a else ulidString b) = some b
    rw [if_neg fun heq => hne (ulidString_injOn hparse ha hb heq.symm)]
    exact hparse b hb

end Read

/-! ## Ids as they are written -/

/-- The digits of ids. -/
def crockford : List Char := "0123456789ABCDEFGHJKMNPQRSTVWXYZ".toList

/-- A number, in as many digits of base 32. -/
def digits : ℕ → ℕ → List ℕ
  | 0, _ => []
  | n + 1, u => digits n (u / 32) ++ [u % 32]

/-- 26 digits. -/
def encode (u : Ulid) : List Char := (digits 26 u).map fun d => crockford.getD d '0'

/-- 26 digits, of a number that has 128 bits. -/
def decode (text : List Char) : Option Ulid :=
  let u := text.foldl (fun u c => u * 32 + crockford.idxOf c.toUpper) 0
  if text.length = 26 ∧ (∀ c ∈ text, c.toUpper ∈ crockford) ∧ u < 2 ^ 128 then some u else none

theorem digits_lt {n u d : ℕ} (h : d ∈ digits n u) : d < 32 := by
  induction n generalizing u with
  | zero => cases h
  | succ _ ih =>
    obtain h | h := mem_append.mp h
    · exact ih h
    · rw [mem_singleton.mp h]
      exact Nat.mod_lt _ (by decide)

theorem length_digits {n u : ℕ} : (digits n u).length = n := by
  induction n generalizing u with
  | zero => rfl
  | succ n ih =>
    show (digits n (u / 32) ++ [u % 32]).length = n + 1
    rw [length_append, ih, length_singleton]

theorem foldl_digits {n u : ℕ} : (digits n u).foldl (fun u d => u * 32 + d) 0 = u % 32 ^ n := by
  induction n generalizing u with
  | zero =>
    show 0 = u % 1
    rw [Nat.mod_one]
  | succ n ih =>
    show (digits n (u / 32) ++ [u % 32]).foldl _ 0 = _
    rw [foldl_append, ih, foldl_cons, foldl_nil, pow_succ', Nat.mod_mul]
    omega

theorem idxOf_crockford : ∀ d < 32, crockford.idxOf (crockford.getD d '0').toUpper = d ∧
    (crockford.getD d '0').toUpper ∈ crockford ∧ crockford.getD d '0' ≠ ':' := by
  decide +kernel

theorem decode_encode {u : Ulid} (hu : u.IsId) : decode (encode u) = some u := by
  have hvalue : (encode u).foldl (fun u c => u * 32 + crockford.idxOf c.toUpper) 0 = u := by
    unfold encode
    rw [foldl_map]
    have hsame : (digits 26 u).foldl
        (fun u d => u * 32 + crockford.idxOf (crockford.getD d '0').toUpper) 0 =
        (digits 26 u).foldl (fun u d => u * 32 + d) 0 := by
      refine foldl_ext _ _ _ fun v d hd => ?_
      rw [(idxOf_crockford d (digits_lt hd)).1]
    rw [hsame, foldl_digits]
    exact Nat.mod_eq_of_lt (lt_of_lt_of_le hu (by norm_num))
  unfold decode
  dsimp only
  rw [hvalue, if_pos]
  refine ⟨?_, fun c hc => ?_, hu⟩
  · unfold encode
    rw [length_map, length_digits]
  · obtain ⟨d, hd, rfl⟩ := mem_map.mp hc
    exact (idxOf_crockford d (digits_lt hd)).2.1

theorem colon_notMem_encode (u : Ulid) : ':' ∉ encode u := by
  intro h
  obtain ⟨d, hd, heq⟩ := mem_map.mp h
  exact (idxOf_crockford d (digits_lt hd)).2.2 heq

end DmKeys

end Hibari
