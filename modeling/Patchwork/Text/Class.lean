import Patchwork.Text.Ranges

/-!
# Character classes

The classes the grammars speak of: blanks, control characters, letters, digits, and the two classes
that make up words (`isWordStart` for the first character of an identifier, `isWordChar` for the
others). They cover all of Unicode. ASCII is decided by arithmetic and only what lies beyond it is
looked up in `Patchwork.Text.Ranges`.
-/

namespace Patchwork.Text

/-- Does a table of closed ranges hold the code point? -/
def inRanges (n : Nat) (ranges : List (Nat × Nat)) : Bool :=
  ranges.any fun r => r.1 ≤ n && n ≤ r.2

/-- The `White_Space` property. -/
def isBlank (c : Char) : Bool :=
  let n := c.toNat
  (9 ≤ n && n ≤ 13) || n == 32 || n == 0x85 || n == 0xa0 || n == 0x1680 ||
    (0x2000 ≤ n && n ≤ 0x200a) || n == 0x2028 || n == 0x2029 || n == 0x202f || n == 0x205f ||
    n == 0x3000

/-- The general category `Cc`. -/
def isControl (c : Char) : Bool :=
  let n := c.toNat
  n < 32 || (127 ≤ n && n < 160)

/-- The `Alphabetic` property. -/
def isLetter (c : Char) : Bool :=
  if c.toNat < 128 then c.isAlpha else inRanges c.toNat alphabeticRanges

def isLetterOrNumber (c : Char) : Bool :=
  if c.toNat < 128 then c.isAlphanum
  else inRanges c.toNat alphabeticRanges || inRanges c.toNat numericRanges

def isWordStart (c : Char) : Bool :=
  isLetter c || c == '_' || c == '$'

/-- May the character stand inside an identifier? -/
def isWordChar (c : Char) : Bool :=
  isLetterOrNumber c || c == '_' || c == '$'

end Patchwork.Text
