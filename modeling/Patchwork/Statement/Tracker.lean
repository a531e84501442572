import Patchwork.Statement.Foreach

/-!
# Statement tracking

`Tracker` recognizes statements and declarations in a text region. A keyword counts only at the
start of a line, and a backslash before it keeps it as text. A statement stays open until the brace
that closes it, or until the line break when its body has no braces. A brace that closes nothing is
text.

The text around statements belongs to a host, which buffers it (`TextHost`). The host may put blocks
of its own on the tracker's stack; these are closed by braces in the same way.
-/

namespace Patchwork

/-- What buffers the text of a region with statements. -/
class TextHost (H : Type) where
  buffer : H → Buffer
  setBuffer : H → Buffer → H
  /-- Move what is buffered to the output, because code follows. -/
  flush : H → Compile H

namespace TextHost

variable {H : Type} [TextHost H]

def pushText (host : H) (t : Text) : H :=
  setBuffer host ((buffer host).pushText t)

def escaped (host : H) : Bool :=
  (buffer host).endsWith '\\'

def unescape (host : H) (t : Text) : H :=
  setBuffer host ((buffer host).unescape.pushText t)

/-- Move what is buffered to the output, the blanks at its end last. -/
def boundary (host : H) : Compile H := do
  let blanks := (buffer host).blankEnd
  let host ← flush (setBuffer host (buffer host).trimEnd)
  Compile.emit blanks
  return host

end TextHost

instance : TextHost Chain where
  buffer chain := chain.current
  setBuffer chain current := { chain with current }
  flush := Chain.flush

/-- What a keyword at the start of a line begins. -/
inductive Form where
  /-- Code that is copied up to one of some characters. -/
  | declaration (closing : List Char)
  | block (keyword : Keyword)
  deriving DecidableEq, Repr

/-- Something that is open. -/
inductive Open where
  | statement (s : Statement)
  | block (id : Nat) (span : Span)
  deriving DecidableEq, Repr

/-- What a closing brace has closed. -/
inductive Closed where
  | statement
  | block (id : Nat)
  | stray
  deriving DecidableEq, Repr

/-- The statements of a region. -/
structure Tracker where
  regionStart : Nat
  wraps : Bool
  opened : List Open := []
  closed : List Statement := []
  /-- How many declarations and statements have been recognized. -/
  recognized : Nat := 0
  deriving DecidableEq, Repr

namespace Tracker

open Compile TextHost

/-- The keywords and what they begin. The first that matches counts. -/
def keywords : List (Text × Form) :=
  [("const", .declaration ['=', ';', '\n']),
   ("case", .declaration [':']),
   ("let", .declaration ['=', ';', '\n']),
   ("var", .declaration ['=', ';', '\n']),
   ("break", .declaration [';', '\n']),
   ("default", .declaration [':']),
   ("if", .block .ifTrue),
   ("foreach", .block .foreach),
   ("for", .block .forLoop),
   ("while", .block .whileLoop),
   ("switch", .block .switch)]

def keywordInitials : List Char :=
  ['c', 'l', 'v', 'b', 'd', 'i', 'f', 'w', 's']

/-- Is the innermost thing open a branch without braces? -/
def inlineOpen (k : Tracker) : Bool :=
  match k.opened with
  | .statement s :: _ => s.last.inline
  | _ => false

def breakpoints (k : Tracker) : List Char :=
  keywordInitials ++ '}' :: if k.inlineOpen then ['\n'] else []

def pushBlock (k : Tracker) (id : Nat) (span : Span) : Tracker :=
  { k with opened := .block id span :: k.opened }

/-- Are there only blanks before a position, on its line or since the region began? -/
def atLineStart (k : Tracker) (index : Nat) : Scan Bool := do
  let before ← Scan.whole ((← get).slice? (min k.regionStart index) index)
  return Text.allBlank (Text.lastLine before)

variable {H : Type} [TextHost H] [Expansion]

def declaration (host : H) (word : Text) (closing : List Char) : Compile H := do
  let host ← boundary host
  discard <| scan (Scan.readText word)
  emit word
  let found ← scan (Scan.find closing false false)
  emit found.before
  match found.matched with
  | some '=' =>
    discard <| scan Scan.read
    emit "="
    emit (← scan Scan.skipInlineBlanks)
    let start ← position
    let value ← scan Scan.readExpression
    emit (← Expansion.expand .initializer value start true).source
    if ← scan (Scan.readIf ';') then emit ";"
  | some c =>
    if c != '\n' then
      discard <| scan Scan.read
      emit [c]
  | none => pure ()
  return host

/-- What the head of a branch gives. -/
structure BranchHead where
  decl : SlotId
  condition : Option Text := none
  reactive : Bool := false
  params : Option (SlotId × Text) := none
  trailer : Text := []
  each : Option Each := none

def branchHead (keyword : Keyword) : Compile BranchHead := do
  if keyword == .otherwise then return { decl := ← onOutput (·.addSlot "else") }
  let skipped ← scan (Scan.skipBlanks true)
  let start ← position
  let inner ← scan Scan.readEnclosed
  if keyword == .foreach then
    let (subject, binding) ← Foreach.readHead inner (start + 1)
    let o ← output
    let (front, params, each) := Foreach.call o subject binding
    let decl ← onOutput (·.addSlot front)
    let slot ← onOutput (·.addSlot (callbackHead o.dialect params))
    return { decl, reactive := subject.reactive, params := some (slot, params)
             trailer := Foreach.trailer o.dialect, each := some each }
  else
    let e ← Expansion.expand .head inner (start + 1) true
    let decl ← onOutput (·.addSlot (keyword.text ++ skipped ++ '(' :: e.source ++ [')']))
    return { decl, condition := some e.source, reactive := e.reactive }

def readKeyword (keyword : Keyword) : Scan Unit := do
  if keyword == .elseIf then
    discard <| Scan.readText "else"
    discard <| Scan.skipBlanks true
    discard <| Scan.readText "if"
  else discard <| Scan.readText keyword.text

/-- Begin a branch, of a new statement or of one that goes on. -/
def openPart (k : Tracker) (host : H) (keyword : Keyword) (continued : Option Statement) :
    Compile (Tracker × H) := do
  let host ← boundary host
  let at_ ← position
  scan (readKeyword keyword)
  let span : Span := ⟨at_, ← position⟩
  let start ← match continued with
    | some s => pure s.start
    | none => onOutput (·.addSlot [])
  let context := (← output).context
  let declStart ← onOutput (·.addPendingSlot ⟨.statementOpen keyword.text, span⟩)
  let head ← branchHead keyword
  emit (← scan (Scan.skipBlanks true))
  let braced ← scan (Scan.readIf '{')
  emit "\x7b"
  let part : Part :=
    { keyword, span, condition := head.condition, reactive := head.reactive, inline := !braced
      declStart, decl := head.decl, params := head.params, close := none }
  let statement : Statement := match continued with
    | some s => s.addPart part
    | none =>
      { keyword, earlier := [], last := part, reactive := part.reactive, start, context
        trailer := head.trailer, each := head.each }
  return ({ k with opened := .statement statement :: k.opened }, host)

/-- The branch that goes on after a closed one, if the text goes on with one. -/
def continuation? (rest : Text) : Option Keyword :=
  let rest := Text.trimStart rest
  if Text.startsWithWord "else" rest then
    let after := Text.trimStart (rest.drop 4)
    if Text.startsWithWord "if" after && Text.startsWith "(" (Text.trimStart (after.drop 2)) then
      some .elseIf
    else some .otherwise
  else none

variable [Editor]

def closePart (s : Statement) : Compile Statement := do
  Editor.edit ⟨s.last.declStart, .set []⟩
  let close ← onOutput (·.addSlot ('}' :: s.trailer))
  return { s with last := { s.last with close := some close } }

/-- Close the innermost thing that is open, at a brace or at the line break after an inline body. -/
def close (k : Tracker) (host : H) (atLineBreak : Bool) : Compile (Tracker × H × Closed) := do
  let host ← boundary host
  match k.opened with
  | [] => return (k, host, .stray)
  | .block id _ :: opened => return ({ k with opened }, host, .block id)
  | .statement s :: opened =>
    let k := { k with opened }
    let s ← closePart s
    let host := if atLineBreak then pushText host "\n" else host
    let rest := (← cursor).rest
    match if s.last.keyword.continuable then continuation? rest else none with
    | some keyword =>
      let host := pushText host (← scan (Scan.skipBlanks false))
      let (k, host) ← openPart k host keyword (some s)
      return (k, host, .statement)
    | none => return ({ k with closed := k.closed ++ [s] }, host, .statement)

/-- Recognize a keyword at the cursor. There is no answer when none counts here. -/
def keyword? (k : Tracker) (host : H) : Compile (Option (Tracker × H)) := do
  let c ← cursor
  let at_ := c.position
  match keywords.find? fun (word, _) => Text.startsWithWord word c.rest with
  | none => return none
  | some (word, form) =>
    let kept ← if 0 < at_ && escaped host then scan (k.atLineStart (at_ - 1)) else pure false
    if kept then
      discard <| scan (Scan.readText word)
      return some (k, unescape host word)
    if !(← scan (k.atLineStart at_)) then return none
    let recognized := { k with recognized := k.recognized + 1 }
    match form with
    | .declaration closing => return some (recognized, ← declaration host word closing)
    | .block keyword =>
      if Text.startsWith "(" (Text.trimStart (c.rest.drop word.length)) then
        return some (← openPart recognized host keyword none)
      else return none

def handles (k : Tracker) (c : Char) : Bool :=
  k.breakpoints.contains c

def dispatch (k : Tracker) (host : H) (c : Char) : Compile (Tracker × H × Option Closed) := do
  if c == '}' then
    discard <| scan Scan.read
    if escaped host then return (k, unescape host "\x7d", none)
    else if k.opened.isEmpty then return (k, pushText host "\x7d", some .stray)
    else
      let (k, host, closed) ← k.close host false
      return (k, host, some closed)
  else if c == '\n' then
    discard <| scan Scan.read
    if k.inlineOpen then
      let (k, host, _) ← k.close host true
      return (k, host, none)
    else return (k, pushText host "\n", none)
  else
    match ← k.keyword? host with
    | some (k, host) => return (k, host, none)
    | none =>
      discard <| scan Scan.read
      return (k, pushText host [c], none)

def openBlock? (k : Tracker) : Option Span :=
  k.opened.reverse.findSome? fun
    | .block _ span => some span
    | .statement _ => none

/-- End the region. A block of the host must not be open. Says whether a closed statement reads a
reactive value. -/
def finish (k : Tracker) : Compile (Tracker × Bool) := do
  match k.openBlock? with
  | some span => fail .blockOpen span.start span.stop
  | none =>
    if k.wraps then (k.closed.filter (·.reactive)).forM Statement.makeReactive
    return ({ k with closed := [] }, k.closed.any (·.reactive))

end Tracker
end Patchwork
