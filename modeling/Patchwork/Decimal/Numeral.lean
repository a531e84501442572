import Patchwork.Text.Basic

/-!
# Decimal numerals

A numeral is an optional sign, then ASCII digits with at most one point among them and at least one
digit. Exponents and words are no numerals. `Numeral.read?` gives the double nearest to the number.
-/

namespace Patchwork.Decimal.Numeral

def isSign (c : Char) : Bool :=
  c == '+' || c == '-'

/-- What follows an optional sign. -/
def unsigned (t : Text) : Text :=
  if t.head?.any isSign then t.drop 1 else t

/-- Is an unsigned text made of digits with at most one point, and at least one digit? -/
def isUnsigned (t : Text) : Bool :=
  t.any Char.isDigit && t.all (fun c => c.isDigit || c == '.') && t.count '.' ≤ 1

def isNumeral (t : Text) : Bool :=
  isUnsigned (unsigned t)

def digits (t : Text) : Nat :=
  t.foldl (fun n c => if c.isDigit then 10 * n + (c.toNat - 48) else n) 0

/-- How many characters follow the point. -/
def places (t : Text) : Nat :=
  ((t.dropWhile (· != '.')).drop 1).length

/-- The double nearest to the number a numeral writes. -/
def read? (t : Text) : Option Float :=
  if isNumeral t then
    let body := unsigned t
    let size := Float.ofScientific (digits body) true (places body)
    some (if t.head? == some '-' then -size else size)
  else none

end Patchwork.Decimal.Numeral
