import Mathlib

/-!
# Characters, as Go sorts them

What `unicode.IsSpace` and `unicode.IsControl` say of a character, and the two checks of a text that
rest on them: whether anything is left of it by `strings.TrimSpace`, and whether it has a control
character that is not allowed in a message.
-/

namespace GoText

/-- `unicode.IsSpace`: the characters with the property `White_Space`. -/
def isSpace (c : Char) : Bool :=
  (9 ≤ c.toNat && c.toNat ≤ 13) || (0x2000 ≤ c.toNat && c.toNat ≤ 0x200A) ||
    [0x20, 0x85, 0xA0, 0x1680, 0x2028, 0x2029, 0x202F, 0x205F, 0x3000].contains c.toNat

/-- `unicode.IsControl`: the characters of the category `Cc`. -/
def isControl (c : Char) : Bool := c.toNat < 0x20 || (0x7F ≤ c.toNat && c.toNat < 0xA0)

/-- **A blank text**: `strings.TrimSpace` leaves nothing of it. -/
def blank (text : String) : Bool := text.toList.all isSpace

end GoText
