import Hibari.TextScan

/-!
# Mentions, as the server reads them

The package `mention`. A body is a list of characters here, and a position counts them; everything
that the package looks for is ASCII, so that looking at bytes or at characters finds the same, and a
position in bytes is that of a character (`byteOffset`).
-/

namespace Mentions

open TextScan

/-- What code is written between. -/
def backtick : Char := Char.ofNat 0x60

/-- `fence`. -/
def fence : List Char := [backtick, backtick, backtick]

/-- `appendInlineCode`: the code between two backticks of one line, in what begins at a position. -/
def appendInlineCode (start : ℕ) (s : List Char) : List (ℕ × ℕ) :=
  match s with
  | [] => []
  | c :: rest =>
    if c ≠ backtick then appendInlineCode (start + 1) rest
    else match rest.idxOf? backtick with
      | none => appendInlineCode (start + 1) rest
      | some closing =>
        if 0 < closing ∧ ∀ newline ∈ rest.idxOf? '\n', closing < newline then
          (start, start + 1 + closing + 1) ::
            appendInlineCode (start + 1 + closing + 1) (rest.drop (closing + 1))
        else appendInlineCode (start + 1) rest
termination_by s.length
decreasing_by
  all_goals simp_wf

/-- `CodeRanges`, of what begins at a position. -/
def codeRangesFrom (pos : ℕ) (body : List Char) : List (ℕ × ℕ) :=
  match hopening : index? fence body with
  | none => appendInlineCode pos body
  | some opening =>
    match index? fence (body.drop (opening + fence.length)) with
    | none => appendInlineCode pos body
    | some closing =>
      let stop := opening + fence.length + closing + fence.length
      appendInlineCode pos (body.take opening) ++ (pos + opening, pos + stop) ::
        codeRangesFrom (pos + stop) (body.drop stop)
termination_by body.length
decreasing_by
  have hle : opening + fence.length ≤ body.length := add_length_le_of_index? hopening
  have hpos : 0 < fence.length := by decide
  simp only [List.length_drop]
  omega

/-- `CodeRanges`: where the code of a body begins and ends. -/
def CodeRanges (body : List Char) : List (ℕ × ℕ) := codeRangesFrom 0 body

/-- `InRanges`. -/
def InRanges (ranges : List (ℕ × ℕ)) (pos : ℕ) : Prop := ∃ r ∈ ranges, r.1 ≤ pos ∧ pos < r.2

instance (ranges : List (ℕ × ℕ)) (pos : ℕ) : Decidable (InRanges ranges pos) :=
  inferInstanceAs (Decidable (∃ r ∈ ranges, _))

/-- `[0-9A-Za-z]`. -/
def isAlnum (c : Char) : Bool :=
  ('0' ≤ c && c ≤ '9') || ('A' ≤ c && c ≤ 'Z') || ('a' ≤ c && c ≤ 'z')

end Mentions
