import Patchwork.Statement.Basic

/-!
# The head of a `foreach`

`from a to b`, `to b`, or an expression, each with an optional binding after the word `as`. A
binding with a key, as in `key: value`, goes through the entries of an object.
-/

namespace Patchwork.Foreach

open Compile

/-- What is gone through, as it is written. -/
inductive Subject where
  | iterated (unparsed : Text) (e : Expr)
  | range (first last : Expr)
  deriving DecidableEq, Repr

def onHead {α : Type} (step : Scan α) (c : Cursor) : Compile (α × Cursor) :=
  match step c with
  | .ok a c => return (a, c)
  | .error halt _ => throw halt

/-- Read a word of the head, and the blanks and comments after it. -/
def skipWord (w : Text) : Scan Unit := do
  discard <| Scan.readText w
  discard <| Scan.skipBlanks true

variable [Expansion]

def readExpanded (c : Cursor) : Compile (Text × Expr × Cursor) := do
  let start := c.position
  let (text, c) ← onHead Scan.readExpression c
  return (text, ← Expansion.expand .head text start true, c)

def readSubject (c : Cursor) : Compile (Subject × Cursor) := do
  if Text.startsWithWord "from" c.rest then
    let (_, c) ← onHead (skipWord "from") c
    let (_, first, c) ← readExpanded c
    let (_, c) ← onHead (Scan.skipBlanks true) c
    if !Text.startsWithWord "to" c.rest then fail .rangeEndMissing c.position (c.position + 1)
    let (_, c) ← onHead (skipWord "to") c
    let (_, last, c) ← readExpanded c
    return (.range first last, c)
  else if Text.startsWithWord "to" c.rest then
    let (_, c) ← onHead (skipWord "to") c
    let (_, last, c) ← readExpanded c
    return (.range ⟨"0", false⟩ last, c)
  else
    let (unparsed, e, c) ← readExpanded c
    return (.iterated unparsed e, c)

def readHead (inner : Text) (base : Nat) : Compile (Subject × Text) := do
  let (_, c) ← onHead (Scan.skipBlanks true) (.ofText inner base)
  let (subject, c) ← readSubject c
  let (_, c) ← onHead (Scan.skipBlanks true) c
  if Text.startsWithWord "as" c.rest then return (subject, Text.trim (c.rest.drop 2))
  else if c.atEnd then return (subject, [])
  else fail (.unexpectedInForeach (Text.trim c.rest)) c.position (base + Text.bytes inner)

/-- The key and the value of a binding with a key. A pattern on the left is no key. -/
def objectBinding? (binding : Text) : Option (Text × Text) := do
  let (key, value) ← Text.splitOnce? ':' binding
  let key := Text.trim key
  if key.contains '{' || key.contains '[' || !key.head?.any Text.isWordStart then none
  else return (key, Text.trim value)

/-- The front of the call, the parameters of its callback, and the kind of iteration. -/
def call (o : Output) (subject : Subject) (binding : Text) : Text × Text × Each :=
  match subject with
  | .iterated unparsed e =>
    match objectBinding? binding with
    | some (key, value) =>
      (o.feature "forEachObject" ++ '(' :: e.source ++ ", ", value ++ ", " ++ key,
        ⟨.object, unparsed, e.source⟩)
    | none =>
      (o.feature "forEachArray" ++ '(' :: e.source ++ ", ", binding, ⟨.array, unparsed, e.source⟩)
  | .range first last =>
    (o.feature "range" ++ '(' :: first.source ++ ", " ++ last.source ++ ", ", binding,
      ⟨.range, [], []⟩)

/-- Does what is gone through read a reactive value? -/
def Subject.reactive : Subject → Bool
  | iterated _ e => e.reactive
  | range first last => first.reactive || last.reactive

/-- What follows the body. -/
def trailer : Dialect → Text
  | .modern => ");"
  | .legacy => ".bind(this));"

end Patchwork.Foreach
