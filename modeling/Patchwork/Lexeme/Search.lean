import Patchwork.Lexeme.Nesting

/-!
# Searching for characters

`search` looks for the first of some characters. On its way it passes over strings, comments and
regular expressions as wholes, as far as the region's `ScanOptions` say that these exist there; but
a character that is looked for counts even where it would begin one of them.
-/

namespace Patchwork.Lexeme

/-- What is passed over as a whole. -/
structure ScanOptions where
  comments : Bool := false
  strings : Bool := false
  /-- Regular expressions, where an expression may begin. -/
  regex : Bool := false
  /-- Is the region code rather than text? -/
  code : Bool := false
  deriving DecidableEq, Repr

namespace ScanOptions

def inText : ScanOptions := {}

def inCode : ScanOptions := ⟨true, true, true, true⟩

end ScanOptions

/-- What stands at the front and is passed over: a string, a comment, a regular expression or one
character. `past` is the text before it, backwards. -/
def unit (o : ScanOptions) (past : Text) : Reader := fun position t =>
  match t with
  | [] => .ok 0
  | c :: _ =>
    if o.strings && isQuote c then string position t
    else if c == '/' then do
      match ← if o.comments then comment position t else .ok 0 with
      | 0 => if o.regex && canStartExpression past then .ok ((regex? t).getD 1) else .ok 1
      | n => .ok n
    else .ok 1

/-- How many characters stand before the first of the characters looked for, or in all if there is
none, after skipping some. `n` characters have been read. -/
def searchFrom (o : ScanOptions) (chars : List Char) :
    (past : Text) → (position skip n : Nat) → Text → Except Slip Nat
  | _, _, _, n, [] => .ok n
  | past, position, skip + 1, n, c :: t =>
    searchFrom o chars (c :: past) (position + c.utf8Size) skip (n + 1) t
  | past, position, 0, n, c :: t =>
    if chars.contains c then .ok n
    else
      match unit o past position (c :: t) with
      | .error s => .error (s.after n)
      | .ok k => searchFrom o chars (c :: past) (position + c.utf8Size) (k - 1) (n + 1) t

/-- How many characters stand before the first of the characters looked for, or in all if there is
none. -/
def search (o : ScanOptions) (chars : List Char) (past : Text) : Reader := fun position t =>
  searchFrom o chars past position 0 0 t

end Patchwork.Lexeme
