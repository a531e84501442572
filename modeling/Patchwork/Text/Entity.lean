import Patchwork.Text.Digits
import Patchwork.Text.EntityTable

/-!
# Character references

`decodeEntities` replaces the character references of markup text by the characters they stand
for. A reference is an ampersand, a name or a number, and a semicolon; an ampersand that does not
begin a valid reference stays as it is, and so does everything else. The result is not decoded
again.
-/

namespace Patchwork.Text

/-- The character with a code point, if there is one and markup may refer to it by number: of the
controls below the blank only tab, line feed, form feed and carriage return. -/
def referenced? (n : Nat) : Option Char :=
  if (n < 32 && n != 9 && n != 10 && n != 12 && n != 13) || 0x10ffff < n ||
      (0xd800 ≤ n && n ≤ 0xdfff) then none
  else some (Char.ofNat n)

/-- Search the entries of a row for a name. `left` is what remains to be matched of the name in
the present entry, and `none` once the entry is known to be another one. -/
def lookupEntry (name : Text) : Option Text → Text → Option Text
  | _, [] => none
  | none, c :: t => lookupEntry name (if c == ';' then some name else none) t
  | some [], c :: t =>
    if c == ' ' then some (t.takeWhile (· != ';')) else lookupEntry name none t
  | some (d :: r), c :: t => lookupEntry name (if c == d then some r else none) t

def named? (name : Text) : Option Text := do
  let points ← entityTable.findSome? fun row : String => lookupEntry name (some name) row.toList
  (splitOn '+' points).mapM fun p => (numeral? 16 p).map Char.ofNat

/-- The characters that the inside of a reference, between ampersand and semicolon, stands for. -/
def reference? : Text → Option Text
  | '#' :: 'x' :: ds => ((numeral? 16 ds).bind referenced?).map ([·])
  | '#' :: 'X' :: ds => ((numeral? 16 ds).bind referenced?).map ([·])
  | '#' :: ds => ((numeral? 10 ds).bind referenced?).map ([·])
  | name => named? name

/-- Decode with what has been read since an ampersand, latest first. -/
def decodeFrom : Option Text → Text → Text
  | none, [] => []
  | some read, [] => '&' :: read.reverse
  | none, c :: t => if c == '&' then decodeFrom (some []) t else c :: decodeFrom none t
  | some read, c :: t =>
    if c == '&' then '&' :: (read.reverse ++ decodeFrom (some []) t)
    else if c == ';' then
      (reference? read.reverse).getD ('&' :: (read.reverse ++ [';'])) ++ decodeFrom none t
    else decodeFrom (some (c :: read)) t

def decodeEntities (t : Text) : Text :=
  decodeFrom none t

end Patchwork.Text
