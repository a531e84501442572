import Patchwork.Text.Basic

/-!
# Lines

A line ends with a line feed, before which a carriage return may stand. `lines` gives the lines of
a text and `lineAt?` the number of the line a byte lies on.
-/

namespace Patchwork.Text

def dropReturn (t : Text) : Text :=
  if endsWithChar '\r' t then t.dropLast else t

/-- The lines of a text. What follows the last line feed is a line only if it is not empty. -/
def lines (t : Text) : List Text :=
  let parts := splitOn '\n' t
  let parts := if parts.getLast? == some [] then parts.dropLast else parts
  parts.map dropReturn

/-- The number of the line on which a byte lies, the first line being 1. A byte past the end counts
as the end; there is no answer inside a character. -/
def lineAt? (offset : Nat) (t : Text) : Option Nat :=
  (before? offset t).map fun front => front.count '\n' + 1

end Patchwork.Text
