import Patchwork.Statement.Tracker
import Patchwork.Style.Formula

/-!
# Stylesheet regions

A stylesheet region is compiled to a function that builds the sheet: a selector opens a scope, a
declaration adds a value to it, and other text is added as a statement.

```text
.a {                    const __s1 = __s0.select(".a");
    color: ${c};        __s1.value("color", `${c}`);
}
```

Control flow is kept as code through the statement tracker. When a reactive value is read the whole
function is run again. A region that needs nothing when the generated code runs folds: it is
rendered at compile time, from a sheet that is built beside the code.
-/

namespace Patchwork

/-- The text of the style statement that is being read. -/
structure StyleBuffer where
  pieces : Buffer := []
  /-- The position of its first character that is no blank. -/
  start : Option Nat := none
  deriving DecidableEq, Repr

namespace StyleBuffer

open Compile

def isBlank (b : StyleBuffer) : Bool :=
  b.pieces.all Piece.isBlank

/-- Note the position of the first character, if it is not known yet. -/
def startAt (b : StyleBuffer) (at_ : Nat) : StyleBuffer :=
  { b with start := b.start <|> some at_ }

def push (b : StyleBuffer) (p : Piece) (at_ : Nat) : StyleBuffer :=
  { b.startAt at_ with pieces := p :: b.pieces }

/-- Is there only blank text since the last line break or comment? -/
def atLineStart (b : StyleBuffer) : Bool :=
  let recent := b.pieces.takeWhile fun
    | .comment _ => false
    | _ => true
  !b.pieces.any (fun
    | .expr _ => true
    | _ => false) &&
  Text.allBlank (Text.lastLine ((Piece.staticText? recent.reverse).getD []))

def previewPiece : Piece → Text
  | .text t => t
  | .expr _ => "$\x7b...\x7d"
  | .comment _ => []

/-- The statement as it is shown in a message. -/
def preview (b : StyleBuffer) : Text :=
  Text.trim (b.pieces.pieces.flatMap previewPiece)

def blankPiece : Piece → Text
  | .text t => t
  | .comment t => t
  | .expr _ => []

/-- Move blanks and comments to the output. Anything else is a statement that is not closed. -/
def flush (b : StyleBuffer) : Compile StyleBuffer := do
  if b.isBlank then
    emit (b.pieces.pieces.flatMap blankPiece)
    return {}
  else
    let here ← position
    fail (.styleStatementOpen b.preview) (b.start.getD here) here

end StyleBuffer

instance : TextHost StyleBuffer where
  buffer b := b.pieces
  setBuffer b pieces := { b with pieces }
  flush := StyleBuffer.flush

namespace StyleStatement

def trimBack : List Piece → List Piece
  | .text t :: ps =>
    match Text.trimEnd t with
    | [] => trimBack ps
    | t => .text t :: ps
  | ps => ps

def trimEnd (ps : List Piece) : List Piece :=
  (trimBack ps.reverse).reverse

/-- A statement in its parts: the blanks before it, its body and the comments in it. -/
structure Parts where
  leading : Text := []
  body : List Piece := []
  comments : List Text := []
  deriving DecidableEq, Repr

/-- Add a piece to the parts. Blanks count as leading only before the first comment. -/
def Parts.add (p : Parts) : Piece → Parts
  | .comment c => { p with comments := p.comments ++ [c] }
  | .text t =>
    if p.body.isEmpty then
      let trimmed := Text.trimStart t
      { p with
        leading := if p.comments.isEmpty then p.leading ++ t.takeWhile Text.isBlank else p.leading
        body := if trimmed.isEmpty then [] else [.text trimmed] }
    else { p with body := p.body ++ [Piece.text t] }
  | .expr e => { p with body := p.body ++ [Piece.expr e] }

def split (ps : List Piece) : Parts :=
  let parts := ps.foldl Parts.add {}
  { parts with body := trimEnd parts.body }

def textPiece (t : Text) : List Piece :=
  if t.isEmpty then [] else [.text t]

/-- Divide a declaration at its first colon outside expressions. `before` is what has been read,
latest first. -/
def splitAtColon (before : List Piece) : List Piece → Option (List Piece × List Piece)
  | [] => none
  | .text t :: ps =>
    match Text.splitOnce? ':' t with
    | some (key, value) =>
      let key := before.reverse ++ textPiece (Text.trimEnd key)
      if key.isEmpty then none
      else some (trimEnd key, textPiece (Text.trimStart value) ++ ps)
    | none => splitAtColon (.text t :: before) ps
  | p :: ps => splitAtColon (p :: before) ps

/-- The key and the value of a declaration. An at-rule is none. -/
def declaration? (body : List Piece) : Option (List Piece × List Piece) :=
  match body with
  | .text ('@' :: _) :: _ => none
  | body => splitAtColon [] body

def spread? : List Piece → Option Text
  | [.expr e] => (Text.after? "..." (Text.trimStart e.source)).map Text.trim
  | _ => none

end StyleStatement

/-- An open selector. -/
structure StyleBlock where
  /-- The variable that holds the scope when the generated code runs. -/
  var : Text
  /-- The same scope in the sheet that is built beside the code. -/
  scope : Style.Scope
  deriving DecidableEq, Repr

/-- A stylesheet region. -/
structure Stylesheet where
  buffer : StyleBuffer := {}
  statements : Tracker
  /-- The open selectors, innermost first. -/
  blocks : List StyleBlock := []
  root : StyleBlock
  sheet : Style.Sheet
  /-- Can the region be rendered at compile time, so far? -/
  folds : Bool
  reactive : Bool := false
  selector : Option Text
  ownScope : Bool
  /-- The place in the output where the region begins. -/
  mark : Nat := 0
  head : Option SlotId := none
  deriving DecidableEq, Repr

namespace Stylesheet

open Compile

def breakpoints : List Char :=
  ['<', '$', '%', '@', '{', '}', '/', '\x22', '\x27', ';']

/-- A region at the cursor. -/
def create (attributes : Attributes) : Compile Stylesheet := do
  let (sheet, scope) := Style.Sheet.scope {} attributes.scope
  let var ← onOutput Output.freshVar
  return { statements := { regionStart := ← position, wraps := false }
           root := ⟨var, scope⟩
           sheet
           folds := !attributes.ownScope
           selector := attributes.scope
           ownScope := attributes.ownScope }

/-- The innermost open selector, or the region itself. -/
def current (r : Stylesheet) : StyleBlock :=
  r.blocks.headD r.root

/-- Write the front of the region. -/
def start (r : Stylesheet) : Compile Stylesheet := do
  let mark ← onOutput Output.mark
  let o ← output
  let selector : Text :=
    match r.selector, r.ownScope with
    | some selector, _ => Text.quote selector
    | none, true => "true"
    | none, false => "null"
  emit (o.feature "cabs" ++ '(' :: o.context ++ ", " ++ selector ++ ", ")
  let head ← onOutput (·.addSlot [])
  return { r with mark, head := some head }

def joined (pieces : List Piece) : Compile Text := do
  return (Piece.join? (← output).dialect false pieces).getD (Text.quote [])

/-- Take the statement that has been read, and write the blanks before it and its comments. -/
def takeStatement (r : Stylesheet) : Compile (Stylesheet × List Piece × Option Nat) := do
  let parts := StyleStatement.split r.buffer.pieces.pieces
  emit (parts.leading ++ parts.comments.flatten)
  return ({ r with buffer := {} }, parts.body, r.buffer.start)

def pushMarker [Expansion] (r : Stylesheet) (marker : Char) (at_ : Nat) : Compile Stylesheet := do
  if (← cursor).peek? != some '{' then
    return { r with buffer := r.buffer.push (.text [marker]) at_ }
  else if r.buffer.pieces.endsWith '\\' then
    let buffer := { r.buffer with pieces := r.buffer.pieces.unescape }
    return { r with buffer := buffer.push (.text [marker]) at_ }
  else
    let e ← readMarker marker true
    return { r with
      buffer := r.buffer.push (.expr e) at_
      reactive := r.reactive || e.reactive
      folds := false }

/-- A slash has been read at a position. A line comment counts only at the start of a line. -/
def slash (r : Stylesheet) (at_ : Nat) : Compile Stylesheet := do
  if ← scan (Scan.readIf '*') then
    if !Text.holds "*/" (← cursor).rest then fail .commentOpen at_ (at_ + 2)
    let body ← scan (Scan.findText "*/" true)
    let comment := Piece.comment ("/*" ++ body ++ "*/")
    return { r with buffer := { r.buffer with pieces := comment :: r.buffer.pieces } }
  else if (← cursor).peek? == some '/' && r.buffer.atLineStart then
    let line ← scan (Scan.findText "\n" false)
    let comment := Piece.comment ('/' :: line)
    return { r with buffer := { r.buffer with pieces := comment :: r.buffer.pieces } }
  else return { r with buffer := r.buffer.push (.text ['/']) at_ }

/-- A brace after a selector has been read at a position. -/
def openBlock (r : Stylesheet) (at_ : Nat) : Compile Stylesheet := do
  let (r, body, start) ← r.takeStatement
  let o ← output
  match Piece.join? o.dialect false body with
  | none => fail .selectorMissing at_ (at_ + 1)
  | some selector =>
    let parent := r.current
    let (sheet, scope) :=
      match Piece.staticText? body with
      | some text => if r.folds then r.sheet.select parent.scope text else (r.sheet, parent.scope)
      | none => (r.sheet, parent.scope)
    let var ← onOutput Output.freshVar
    emit (o.declare ++ ' ' :: var ++ " = " ++ parent.var ++ ".select(" ++ selector ++ ");")
    return { r with
      sheet
      blocks := ⟨var, scope⟩ :: r.blocks
      statements := r.statements.pushBlock r.blocks.length ⟨start.getD at_, at_ + 1⟩ }

/-- The code of a declaration's value, and its text if that is known at compile time. -/
def declarationValue (value : List Piece) (span : Span) : Compile (Text × Option Text) := do
  match (Style.Formula.parse? value).filter Style.Calc.needsArithmetic with
  | some formula =>
    let o ← output
    let strip := o.names.value
    let source := o.feature "cu" ++ '(' :: o.arrow strip (formula.render strip) ++ [')']
    match formula.checkUnits, formula.evaluate with
    | .error clash, _ | _, .error clash => fail (.unitClash clash) span.start span.stop
    | .ok _, .ok result => return (source, result.map Style.Quantity.render)
  | none => return (← joined value, Piece.staticText? value)

/-- Write a declaration. A value that is only known when the generated code runs keeps the region
from folding. -/
def writeDeclaration (r : Stylesheet) (key value : List Piece) (span : Span) :
    Compile Stylesheet := do
  let keySource ← joined key
  let (valueSource, folded) ← declarationValue value span
  let block := r.current
  emit (block.var ++ ".value(" ++ keySource ++ ", " ++ valueSource ++ ");")
  match folded with
  | none => return { r with folds := false }
  | some value =>
    match Piece.staticText? key with
    | some key =>
      if r.folds then return { r with sheet := r.sheet.value block.scope key value } else return r
    | none => return r

def writeStatement (r : Stylesheet) (body : List Piece) : Compile Stylesheet := do
  emit (r.current.var ++ ".stat(" ++ (← joined body) ++ ");")
  match Piece.staticText? body with
  | some text => if r.folds then return { r with sheet := r.sheet.stat text } else return r
  | none => return r

/-- End the statement that has been read, at a semicolon or before the brace that ends its block. -/
def endStatement (r : Stylesheet) (stop : Nat) : Compile Stylesheet := do
  let (r, body, start) ← r.takeStatement
  if body.isEmpty then return r
  match StyleStatement.spread? body, StyleStatement.declaration? body with
  | some spread, _ =>
    emit (r.current.var ++ ".spread(" ++ spread ++ ");")
    return { r with folds := false }
  | none, some (key, value) => r.writeDeclaration key value ⟨start.getD stop, stop⟩
  | none, none => r.writeStatement body

variable [Expansion] [Editor]

def trackStatement (r : Stylesheet) (c : Char) (at_ : Nat) : Compile Stylesheet := do
  let (statements, buffer, closed) ← r.statements.dispatch r.buffer c
  let blocks ←
    match closed with
    | some (.block id) => pure (r.blocks.drop (r.blocks.length - id))
    | some .stray =>
      if (← get).settings.warnFallbacks then warn (.strayBrace false) ⟨at_, at_ + 1⟩
      pure r.blocks
    | _ => pure r.blocks
  if statements.recognized != r.statements.recognized then
    return { r with statements, buffer, blocks, folds := false }
  else
    let buffer := if c != '}' && c != '\n' then buffer.startAt at_ else buffer
    return { r with statements, buffer, blocks }

/-- Deal with any other character at a position. -/
def character (r : Stylesheet) (c : Char) (at_ : Nat) : Compile (Stylesheet × Step) := do
  if c == '\x22' || c == '\x27' then
    let literal ← scan Scan.skipString
    return ({ r with buffer := r.buffer.push (.text literal) at_ }, .next)
  discard <| scan Scan.read
  if c == '<' && TagStart.ofText (← cursor).rest == .closing then return (r, .close)
  else if c == '$' || c == '%' || c == '@' then return (← r.pushMarker c at_, .next)
  else if c == '/' then return (← r.slash at_, .next)
  else if c == '{' then return (← r.openBlock at_, .next)
  else if c == ';' then return (← r.endStatement (at_ + 1), .next)
  else return ({ r with buffer := r.buffer.push (.text [c]) at_ }, .next)

/-- Go to the next character that needs a look, and deal with it. -/
def step (r : Stylesheet) : Compile (Stylesheet × Step) := do
  let found ← scan (Scan.find (breakpoints ++ r.statements.breakpoints) false false)
  let at_ ← position
  let text := found.before
  let pushed := { r.buffer with pieces := r.buffer.pieces.pushText text }
  let buffer :=
    if Text.allBlank text then pushed else pushed.startAt (at_ - Text.bytes (Text.trimStart text))
  let r := { r with buffer }
  match found.matched with
  | none => return (r, .eof)
  | some c =>
    let ends := c == '}' && !r.buffer.isBlank && !r.buffer.pieces.endsWith '\\'
    let r ← if ends then r.endStatement at_ else pure r
    if r.statements.handles c then return (← r.trackStatement c at_, .next)
    else r.character c at_

/-- The front and the end of the function that builds the sheet. -/
def builder (o : Output) (var : Text) (reactive : Bool) : Text × Text :=
  let front := o.functionOpen var
  let back := o.functionClose
  if reactive then
    let coff := o.feature "coff" ++ '(' :: o.context ++ ", "
    match o.dialect with
    | .modern => (coff ++ o.names.tracker ++ " => " ++ front, back ++ ")")
    | .legacy =>
      (coff ++ "function(" ++ o.names.tracker ++ ")\x7breturn " ++ front,
        back ++ "\x7d.bind(this))")
  else (front, back)

/-- End the region. -/
def finish (r : Stylesheet) : Compile Unit := do
  let _ ← r.buffer.flush
  let (_, reactive) ← r.statements.finish
  let s ← get
  if r.folds then
    let o := s.output
    let css := Text.quote (r.sheet.render s.settings.layout)
    modifyOutput (·.replaceSince r.mark (o.feature "css" ++ '(' :: o.context ++ ", " ++ css ++ ");"))
  else
    let (front, back) := builder s.output r.root.var (r.reactive || reactive)
    match r.head with
    | some head => Editor.edit ⟨head, .set front⟩
    | none => pure ()
    emit (back ++ ");")

/-- What follows the region when it has a scope of its own. -/
def after? (r : Stylesheet) (o : Output) : Option Text :=
  if r.ownScope then some (o.feature "scope" ++ '(' :: o.context ++ ")") else none

end Stylesheet
end Patchwork
