import Patchwork.Piece
import Patchwork.Session

/-!
# Code

Code passes through unchanged except for a few shorthands:

- `$$context` is the render context, and `$$on(…)` and the other context helpers receive it as
  their first argument;
- `&` before a function, a parenthesized expression or a variable makes it a computed value; the
  words `async` and `defer` may stand before it;
- `*x` reads a reactive value through the tracker, `*?x` also takes a value that is not reactive,
  and `obj.*prop` reads a member; `^x` reads without the tracker.

What has been read is kept in a lookback text and only added to the output at braces, so that words
and objects before a marker can still be taken back.

The operands of the shorthands are fragments of code that are read again in the same way.
`expandAt` bounds how deep fragments lie in each other. Each fragment has fewer markers than the
one around it, so `expand` takes the number of markers for a bound.
-/

namespace Patchwork

/-- A region of code, or a fragment of code. -/
structure Code where
  /-- Do reactive reads go through the tracker? -/
  tracked : Bool := true
  fragment : Bool := false
  /-- What has been read and is not yet in the output. -/
  lookback : Text := []
  /-- How many braces are open. -/
  depth : Nat := 0
  /-- Has a value been read through the tracker? -/
  reactive : Bool := false
  deriving DecidableEq, Repr

/-- A way to expand a fragment that begins at a position of the document. -/
abbrev Expander := (text : Text) → (base : Nat) → (tracked : Bool) → Compile Expr

/-- What a fragment of code is for. -/
inductive Purpose where
  | marker
  /-- The condition of a statement, or what a `foreach` goes through. -/
  | head
  | initializer
  | tagValue
  /-- The body of a computed function, or a computed expression. -/
  | body
  /-- The variable that becomes a computed value. -/
  | operand
  /-- The group or the subscript of a reactive read. -/
  | subject
  /-- The members read of a reactive value, after the name that it has there. -/
  | chain
  deriving DecidableEq, Repr

namespace Code

open Compile

def breakpoints : List Char :=
  ['(', ')', '{', '}', '$', '&', '*', '^', '<']

/-- Words whose parentheses are followed by a block that is no function body. -/
def controlKeywords : List Text :=
  ["if", "for", "while", "switch", "catch", "with"]

def contextHelpers : List Text :=
  ["on", "subscribe", "depend", "rollback", "bind", "unbind", "bindInput"]

/-- Add to the lookback. -/
def push (code : Code) (t : Text) : Code :=
  { code with lookback := code.lookback ++ t }

/-- Move the lookback to the output. -/
def commit (code : Code) : Compile Code := do
  emit code.lookback
  return { code with lookback := [] }

def paramsIn (c : Cursor) (frame : ParenFrame) : Option Text :=
  c.slice? (frame.opened + 1) (frame.closed.getD (frame.opened + 1) - 1)

/-- The parameter of an arrow function without parentheses, which a text, given backwards, ends in.
What comes before it is taken to be one byte. -/
def arrowParam? (past : Text) : Option Text :=
  match past.dropWhile Text.isWordChar with
  | [] => some (past.takeWhile Text.isWordChar).reverse
  | c :: _ => if c.utf8Size == 1 then some (past.takeWhile Text.isWordChar).reverse else none

/-- The parameters of the function whose body begins with the brace just read, or nothing when the
brace begins a plain block. -/
def functionParams : Scan (Option Text) := do
  let c ← get
  match (c.past.drop 1).dropWhile Text.isBlank with
  | '>' :: '=' :: past =>
    let past := past.dropWhile Text.isBlank
    if past.head? == some ')' then
      match c.lastClosed with
      | some frame => return some (← Scan.whole (paramsIn c frame))
      | none => return none
    else return some (← Scan.whole (arrowParam? past))
  | ')' :: _ =>
    match c.lastClosed with
    | some frame =>
      if frame.keyword.any controlKeywords.contains then return none
      else return some (← Scan.whole (paramsIn c frame))
    | none => return none
  | _ => return none

/-- A `$` has been read. -/
def callShorthand (code : Code) : Compile Code := do
  if !(← scan (Scan.readIf '$')) then return code.push ['$']
  let o ← output
  let rest := (← cursor).rest
  if Text.startsWithWord "context" rest then
    discard <| scan (Scan.readText "context")
    return code.push o.context
  match contextHelpers.find? fun name => Text.startsWith (name ++ ['(']) rest with
  | some name =>
    discard <| scan (Scan.readText (name ++ ['(']))
    scan (Scan.pushParenAt ((← position) - 1))
    let separator : Text := if (← cursor).peekSignificant? == some ')' then "" else ", "
    return code.push (o.feature name ++ '(' :: o.context ++ separator)
  | none => return code.push "$$"

/-- The words before `&`. -/
structure Modifiers where
  async : Bool := false
  defer : Bool := false
  deriving DecidableEq, Repr

/-- Take the words `async` and `defer` off the end of a text. -/
def takeModifiers (m : Modifiers) : (fuel : Nat) → Text → Text × Modifiers
  | 0, t => (t, m)
  | fuel + 1, t =>
    let trimmed := Text.trimEnd t
    let word := Text.lastWord trimmed
    if word == "async" then takeModifiers { m with async := true } fuel (Text.dropLastWord trimmed)
    else if word == "defer" then
      takeModifiers { m with defer := true } fuel (Text.dropLastWord trimmed)
    else (t, m)

def withTracker (tracker params : Text) : Text :=
  if Text.allBlank params then tracker else tracker ++ ", " ++ params

def readGroup (opened : Char) (what : Text) : Compile Text := do
  let c ← cursor
  if c.peek? == some opened then scan Scan.readEnclosed
  else fail (.functionPartMissing what) c.position (c.position + 1)

/-- The rest of a computed function, from the word `function` on. -/
def computedFunction (inner : Purpose → Expander) (tracker : Text) : Compile Text := do
  discard <| scan (Scan.readText "function")
  let space ← scan (Scan.skipBlanks true)
  let name ← scan Scan.readWord
  let nameSpace ← if name.isSome then scan (Scan.skipBlanks true) else pure []
  let params ← readGroup '(' "a parameter list"
  let bodySpace ← scan (Scan.skipBlanks true)
  let start ← position
  let body ← readGroup '{' "a function body"
  let body ← inner .body body (start + 1) true
  return "function" ++ space ++ name.getD [] ++ nameSpace ++
    '(' :: withTracker tracker params ++ ')' :: bodySpace ++ '{' :: body.source ++ ['}']

def computedBody (inner : Purpose → Expander) : Compile Text := do
  let start ← position
  if (← cursor).peek? == some '{' then
    let block ← scan Scan.readEnclosed
    let body ← inner .body block (start + 1) true
    return '{' :: body.source ++ ['}']
  else
    let text ← scan Scan.readExpression
    return (← inner .body text start true).source

/-- The rest of a computed value that begins with a parenthesis: an arrow function or an
expression. -/
def computedGroup (inner : Purpose → Expander) (tracker : Text) : Compile Text := do
  let start ← position
  let group ← scan Scan.readEnclosed
  if Text.startsWith "=>" (Text.trimStart (← cursor).rest) then
    let before ← scan (Scan.skipBlanks true)
    discard <| scan (Scan.readText "=>")
    let after ← scan (Scan.skipBlanks true)
    let body ← computedBody inner
    return '(' :: withTracker tracker group ++ ')' :: before ++ "=>" ++ after ++ body
  else
    let e ← inner .body group (start + 1) true
    return (← output).arrow tracker ('(' :: e.source ++ [')'])

/-- An `&` has been read. -/
def computed (inner : Purpose → Expander) (code : Code) : Compile Code := do
  let c ← cursor
  let past := c.past.drop 1
  let word := Lexeme.wordBefore? past
  let modified := word == some "async" || word == some "defer"
  if !(modified || Lexeme.canStartExpression past) || c.peek? == some '&' then
    return code.push (if ← scan (Scan.readIf '&') then "&&" else "&")
  let space ← scan (Scan.skipBlanks true)
  let rest := (← cursor).rest
  let function := Text.startsWithWord "function" rest
  if !(function || rest.head?.any fun d => d == '(' || Text.isWordStart d) then
    return code.push ('&' :: space)
  let (lookback, m) := takeModifiers {} code.lookback.length code.lookback
  let code := { code with lookback }
  let o ← output
  let open_ := o.feature (if m.defer then "cofd" else "coff") ++ '(' :: o.context ++ ", " ++
    (if m.async then "async " else "")
  if function then
    return code.push (open_ ++ (← computedFunction inner o.names.tracker) ++ [')'])
  else if rest.head? == some '(' then
    return code.push (open_ ++ (← computedGroup inner o.names.tracker) ++ [')'])
  else
    let start ← position
    let name ← scan (Scan.readOperand true)
    let e ← inner .operand name start false
    return code.push (o.feature "cofv" ++ '(' :: o.context ++ ", " ++ e.source ++ [')'])

/-- Which marker begins a reactive read. -/
inductive Marker where
  /-- `*`, through the tracker. -/
  | tracked
  /-- `^`, without it. -/
  | untracked
  deriving DecidableEq, Repr

def Marker.char : Marker → Char
  | tracked => '*'
  | untracked => '^'

/-- What a marker that reads nothing leaves behind. -/
def Marker.literal (marker : Marker) (safe : Bool) : Text :=
  if safe then [marker.char, '?'] else [marker.char]

def lastObject (t : Text) : Text :=
  (t.reverse.takeWhile fun c => Text.isWordChar c || c == '.').reverse

def dropLastObject (t : Text) : Text :=
  (t.reverse.dropWhile fun c => Text.isWordChar c || c == '.').reverse

def dropPoints (t : Text) : Text :=
  (t.reverse.dropWhile (· == '.')).reverse

def readMember (inner : Purpose → Expander) (code : Code) : Compile (Code × Option Text) := do
  let object := lastObject code.lookback
  let taken := { code with lookback := dropLastObject code.lookback }
  if (← cursor).peek? == some '[' then
    let start ← position
    let subscript ← scan Scan.readEnclosed
    let key ← inner .subject subscript (start + 1) code.tracked
    return ({ taken with reactive := taken.reactive || key.reactive },
      some (dropPoints object ++ '[' :: key.source ++ [']']))
  else
    match ← scan Scan.readWord with
    | some property => return (taken, some (object ++ property))
    | none => return (code, none)

def readSubject (inner : Purpose → Expander) (code : Code) : Compile (Code × Option Text) := do
  if (← cursor).peek? == some '(' then
    let start ← position
    let group ← scan Scan.readEnclosed
    let e ← inner .subject group (start + 1) code.tracked
    return ({ code with reactive := code.reactive || e.reactive },
      some ('(' :: e.source ++ [')']))
  else return (code, ← scan Scan.readWord)

/-- The read of a value through the tracker. A chain of members after it is read inside the
callback, where the value has a name of its own. -/
def trackedRead (inner : Purpose → Expander) (safe : Bool) (name : Text) : Compile Text := do
  let o ← output
  let c ← cursor
  let tracker := o.names.tracker
  if Text.startsWith "." c.rest && !Text.startsWith ".." c.rest then
    let chain ← scan (Scan.readOperand true)
    let value := o.names.value
    let nested ← inner .chain (value ++ chain) (c.position - Text.bytes value) true
    let callback := (← output).arrow (tracker ++ ", " ++ value) nested.source
    return tracker ++ (if safe then ".d(" else ".c(") ++ name ++ ", " ++ callback ++ [')']
  else return tracker ++ (if safe then ".b(" else ".a(") ++ name ++ [')']

/-- A `*` or `^` has been read. -/
def reactiveRead (inner : Purpose → Expander) (marker : Marker) (code : Code) : Compile Code := do
  let c ← cursor
  let spread := Text.endsWith "..." code.lookback
  let member := Text.endsWithChar '.' code.lookback && !spread
  let first := spread || (!member && Lexeme.canStartExpression (c.past.drop 1))
  let operand := c.peek?.any fun d =>
    Text.isWordStart d || d == '(' || d == '?' || (member && d == '[')
  if !(member || first) || !operand then
    let doubled ← if marker == .tracked then scan (Scan.readIf '*') else pure false
    return code.push (if doubled then "**" else [marker.char])
  let safe ← scan (Scan.readIf '?')
  let (code, subject) ← if member then readMember inner code else readSubject inner code
  match subject with
  | none => return code.push (marker.literal safe)
  | some name =>
    if marker == .tracked && code.tracked then
      let read ← trackedRead inner safe name
      return { code.push read with reactive := true }
    else if safe then
      return code.push ((← output).feature "value" ++ '(' :: name ++ [')'])
    else return code.push (name ++ ".value")

/-- Go to the next character that needs a look, and deal with it. -/
def step (inner : Purpose → Expander) (code : Code) : Compile (Code × Step) := do
  let found ← scan (Scan.find breakpoints false true)
  let code := code.push found.before
  match found.matched with
  | none => return (← code.commit, .eof)
  | some '(' =>
    scan Scan.pushParen
    return (code.push ['('], .next)
  | some ')' =>
    discard <| scan Scan.popParen
    return (code.push [')'], .next)
  | some '{' =>
    let params ← scan functionParams
    let code ← (code.push ['{']).commit
    modifyOutput fun o =>
      match params with
      | some params => o.startFunction params
      | none => o.startBlock
    return ({ code with depth := code.depth + 1 }, .next)
  | some '}' =>
    let code ← (code.push ['}']).commit
    if 0 < code.depth then
      modifyOutput Output.endScope
      return ({ code with depth := code.depth - 1 }, .next)
    else return (code, .next)
  | some '$' => return (← code.callShorthand, .next)
  | some '&' => return (← code.computed inner, .next)
  | some '*' => return (← code.reactiveRead inner .tracked, .next)
  | some '^' => return (← code.reactiveRead inner .untracked, .next)
  | some _ =>
    if code.fragment then return (code.push ['<'], .next)
    else
      match ← scan (Scan.regionEntry true) with
      | .element | .comment => return (← code.commit, .child)
      | .closing => return (← code.commit, .close)
      | .none => return (code.push ['<'], .next)

/-- Read a fragment to its end. -/
def run (inner : Purpose → Expander) : (fuel : Nat) → Code → Compile Code
  | 0, _ => throw .spent
  | fuel + 1, code => do
    let (code, result) ← code.step inner
    if result == .eof then return code else run inner fuel code

end Code

/-- Expand a fragment in a session of its own, the fragments inside it by `inner`. Every step but
the last reads a character. -/
def expandWith (inner : Purpose → Expander) : Expander := fun text base tracked s => do
  let fragment : Session :=
    { cursor := .ofText text base, output := s.output.fork, settings := s.settings, warnings := [] }
  let (code, fragment) ← Code.run inner (text.length + 1) { tracked, fragment := true } fragment
  return (⟨fragment.output.finish, code.reactive⟩,
    { s with
      output := s.output.join fragment.output
      warnings := s.warnings ++ fragment.warnings })

/-- Expand a fragment in which fragments lie less than `depth` deep in each other. -/
def expandAt : (depth : Nat) → Expander
  | 0 => fun _ _ _ => throw .spent
  | depth + 1 => expandWith fun _ => expandAt depth

/-- Does the character begin a shorthand with an operand? -/
def isMarker (c : Char) : Bool :=
  c == '*' || c == '^' || c == '&'

/-- Expand a fragment of code: a condition, an initializer, an attribute value, a text marker. With
`tracked` off, reactive values are read without the tracker. -/
def expand : Expander := fun text base tracked =>
  expandAt (text.countP isMarker + 1) text base tracked

/-- How the fragments of code in a document are expanded. -/
class Expansion where
  expand : Purpose → Expander

/-- Fragments are expanded alike, whatever they are for. -/
instance Expansion.direct : Expansion where
  expand _ := Patchwork.expand

end Patchwork
