import Patchwork.Chain

/-!
# Start and closing tags

`<name attr attr=value attr="text" attr={expr} #region-attr>`, ended by `/>` when the element has no
content, and `</name>`. The values of attributes become code; region attributes, with a `#` in
front, are kept as they are written.
-/

namespace Patchwork

/-- A start tag. -/
structure StartTag where
  name : Text
  /-- The `<` and the name. -/
  span : Span
  /-- The names and sources of the element's attributes. -/
  attributes : List (Text × Text) := []
  region : List RawAttribute := []
  selfClosing : Bool := false
  deriving DecidableEq, Repr

namespace StartTag

open Compile

def endsName (c : Char) : Bool :=
  Text.isBlank c || c == '=' || c == '>' || c == '/' || c == '\x22' || c == '\x27' || c == '{'

def endsValue (c : Char) : Bool :=
  Text.isBlank c || c == '>' || c == '/'

def readValue : Scan RawValue := do
  if ← Scan.readIf '=' then
    let next := (← get).peek?
    if next == some '\x22' || next == some '\x27' then
      return .text (← Scan.readQuoted)
    else if next == some '{' then return .expression (← Scan.readEnclosed)
    else return .text (← Scan.readWhile fun c => !endsValue c)
  else return .flag

/-- The code for an attribute value. The expression of an attribute with a name, beginning at a
position, stands two characters after the name. -/
def valueSource [Expansion] (name : Text) (start : Nat) : RawValue → Compile Text
  | .flag => return Text.quote []
  | .text t => return Text.quote t
  | .expression t => do
    let e ← Expansion.expand .tagValue t (start + Text.bytes name + 2) true
    if e.reactive then return (← output).wrapReactive e.source else return e.source

def readAttribute [Expansion] (tag : StartTag) : Compile StartTag := do
  let start ← position
  let isRegion ← scan (Scan.readIf '#')
  let name ← scan (Scan.readWhile fun c => !endsName c)
  if name.isEmpty then
    let c := (← cursor).peek?.getD ' '
    fail (.unexpectedInTag c) start (start + c.utf8Size)
  let value ← scan readValue
  let stop ← position
  if isRegion then return { tag with region := tag.region ++ [⟨name, value, ⟨start, stop⟩⟩] }
  else
    let source ← valueSource name start value
    return { tag with attributes := tag.attributes ++ [(name, source)] }

/-- Read attributes up to the end of the tag. Each takes at least one character. -/
def readAttributes [Expansion] (tag : StartTag) : (fuel : Nat) → Compile StartTag
  | 0 => throw .spent
  | fuel + 1 => do
    discard <| scan (Scan.skipBlanks false)
    if ← scan (Scan.readText "/>") then return { tag with selfClosing := true }
    else if ← scan (Scan.readIf '>') then return tag
    else if (← cursor).atEnd then fail (.startTagOpen tag.name) tag.span.start tag.span.stop
    else (← tag.readAttribute).readAttributes fuel

/-- Read a start tag. Its `<` stands at a position and has been read. -/
def read [Expansion] (at_ : Nat) : Compile StartTag := do
  let name ← scan (Scan.readWhile isTagChar)
  let tag : StartTag := { name, span := ⟨at_, ← position⟩ }
  tag.readAttributes ((← cursor).rest.length + 1)

def attributeObject (attributes : List (Text × Text)) : Text :=
  let entries := attributes.map fun (name, source) => Text.quote name ++ ": " ++ source
  '{' :: Text.join ", " entries ++ ['}']

end StartTag

/-- Read a closing tag, whose `<` has been read. The name may be missing. -/
def readClosingTag : Scan Text := do
  Scan.expect "/"
  let name ← Scan.readWhile isTagChar
  discard <| Scan.skipBlanks false
  Scan.expect ">"
  return name

end Patchwork
