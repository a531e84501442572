import Patchwork.Cursor

/-!
# Tags

What follows a `<`: the name of a start tag, a closing tag, a comment, or something that is no tag.
-/

namespace Patchwork

/-- What follows a `<`. -/
inductive TagStart where
  | element
  /-- A slash and the name of an element, or its end. -/
  | closing
  /-- The rest of `<!--`. -/
  | comment
  /-- The `<` is an operator or text. -/
  | none
  deriving DecidableEq, Repr

namespace TagStart

def startsClosing (c : Char) : Bool :=
  Text.isLetter c || c == ':' || c == '>'

def startsName (c : Char) : Bool :=
  Text.isLetter c || c == ':' || c == '_'

/-- What the text after a `<` begins with. -/
def ofText (t : Text) : TagStart :=
  if Text.startsWith "!--" t then .comment
  else
    match t with
    | '/' :: t => if t.head?.any startsClosing then .closing else .none
    | t => if t.head?.any startsName then .element else .none

end TagStart

/-- May the character stand in the name of an element? -/
def isTagChar (c : Char) : Bool :=
  Text.isLetterOrNumber c || c == ':' || c == '-' || c == '_' || c == '.'

/-- What the `<` that a search has just passed begins. In code a region may only begin where an
expression may. -/
def Scan.regionEntry (code : Bool) : Scan TagStart := do
  let c ← get
  if code && !(← Scan.canStartAt c.lastMatch) then return .none
  else return TagStart.ofText c.rest

end Patchwork
