import Patchwork.Lexeme.Expression
import Patchwork.Lexeme.Search

/-!
# Cursor

A `Cursor` stands in a document, or in a fragment of one that is read again: it has what lies
behind it and what lies ahead. Its position is counted from the start of the document. Because both
sides are texts the cursor always stands between two characters.

`Scan` is the monad of steps that move a cursor. A step that fails leaves the cursor where it had
come to.
-/

namespace Patchwork

open Lexeme (ScanOptions)

/-- A pair of parentheses in code. -/
structure ParenFrame where
  opened : Nat
  /-- The position after the closing one, once it has been read. -/
  closed : Option Nat
  /-- The word before the opening parenthesis. -/
  keyword : Option Text
  deriving DecidableEq, Repr

/-- A place in a document or a fragment. -/
structure Cursor where
  /-- The position of the fragment in the document. -/
  base : Nat
  /-- What lies behind, latest character first. -/
  past : Text
  /-- What lies ahead. -/
  rest : Text
  /-- What is passed over as a whole in a search. -/
  options : ScanOptions
  /-- The position of the character that was found last. -/
  lastMatch : Nat
  parens : List ParenFrame
  lastClosed : Option ParenFrame
  deriving DecidableEq, Repr

/-- What a search has found. -/
structure Found where
  before : Text
  matched : Option Char
  deriving DecidableEq, Repr

abbrev Scan := EStateM Halt Cursor

namespace Cursor

/-- At the front of a text that begins at a position of the document. -/
def ofText (t : Text) (base : Nat) : Cursor :=
  { base, past := [], rest := t, options := .inCode, lastMatch := base, parens := []
    lastClosed := none }

def input (c : Cursor) : Text :=
  c.past.reverse ++ c.rest

def position (c : Cursor) : Nat :=
  c.base + Text.bytes c.past

/-- Is there nothing ahead? -/
def atEnd (c : Cursor) : Bool :=
  c.rest.isEmpty

def peek? (c : Cursor) : Option Char :=
  c.rest.head?

def peekSignificant? (c : Cursor) : Option Char :=
  c.rest.find? fun d => !Text.isBlank d

/-- Move over some characters. -/
def advance (c : Cursor) (n : Nat) : Cursor :=
  { c with past := (c.rest.take n).reverse ++ c.past, rest := c.rest.drop n }

def before? (c : Cursor) (index : Nat) : Option Text :=
  (Text.before? (index - c.base) c.input).map List.reverse

def slice? (c : Cursor) (a b : Nat) : Option Text :=
  Text.slice? (a - c.base) (b - c.base) c.input

end Cursor

namespace Scan

/-- An answer that there is only if no text had to be cut inside a character. -/
def whole {α : Type} (x : Option α) : Scan α :=
  match x with
  | some a => return a
  | none => throw .split

def lexeme (reader : Lexeme.Reader) : Scan Text := fun c =>
  match reader c.position c.rest with
  | .ok n => .ok (c.rest.take n) (c.advance n)
  | .error s => .error s.halt (c.advance s.passed)

def readWhile (p : Char → Bool) : Scan Text := fun c =>
  let t := c.rest.takeWhile p
  .ok t (c.advance t.length)

def read : Scan (Option Char) := fun c =>
  .ok c.peek? (c.advance 1)

def readIf (d : Char) : Scan Bool := fun c =>
  if c.peek? == some d then .ok true (c.advance 1) else .ok false c

def readText (t : Text) : Scan Bool := fun c =>
  if Text.startsWith t c.rest then .ok true (c.advance t.length) else .ok false c

/-- Read a text that must come next. -/
def expect (t : Text) : Scan Unit := fun c =>
  if Text.startsWith t c.rest then .ok () (c.advance t.length)
  else
    let width := (c.peek?.map Char.utf8Size).getD 0
    .error (.fault ⟨.expected t, ⟨c.position, c.position + width⟩⟩) c

/-- Go to the first of some characters, or to the end. With `consume` it is read, and with `keep` it
counts as part of what was passed over. -/
def find (chars : List Char) (keep consume : Bool) : Scan Found := fun c =>
  match Lexeme.search c.options chars c.past c.position c.rest with
  | .error s => .error s.halt (c.advance s.passed)
  | .ok n =>
    let before := c.rest.take n
    let c := c.advance n
    match c.peek? with
    | none => .ok ⟨before, none⟩ c
    | some d =>
      let c := { c with lastMatch := c.position }
      .ok ⟨if keep then before ++ [d] else before, some d⟩ (if consume then c.advance 1 else c)

/-- Go to a text, and over it with `consume`; or to the end. -/
def findText (t : Text) (consume : Bool) : Scan Text := fun c =>
  match Text.indexOf? t c.rest with
  | some n => .ok (c.rest.take n) (c.advance (if consume then n + t.length else n))
  | none => .ok c.rest (c.advance c.rest.length)

def skipBlanks (comments : Bool) : Scan Text :=
  lexeme (Lexeme.blanks comments)

def skipInlineBlanks : Scan Text :=
  readWhile fun c => c == ' ' || c == '\t'

def skipString : Scan Text :=
  lexeme Lexeme.string

def skipGroup : Scan Text :=
  lexeme Lexeme.group

def readQuoted : Scan Text := do
  whole (Text.inner? (← skipString))

def readEnclosed : Scan Text := do
  whole (Text.inner? (← skipGroup))

def readWord : Scan (Option Text) := do
  if (← get).peek?.any Text.isWordStart then return some (← readWhile Text.isWordChar)
  else return none

def readOperand (chained : Bool) : Scan Text :=
  lexeme (Lexeme.operand chained)

def readExpression : Scan Text := fun c =>
  match Lexeme.expression c.position c.rest with
  | .ok e => .ok (Text.trim (c.rest.take e.stop)) (c.advance e.passed)
  | .error s => .error s.halt (c.advance s.passed)

def canStartAt (index : Nat) : Scan Bool := do
  return Lexeme.canStartExpression (← whole ((← get).before? index))

def wordBefore (index : Nat) : Scan (Option Text) := do
  return Lexeme.wordBefore? (← whole ((← get).before? index))

def pushParenAt (index : Nat) : Scan Unit := do
  let keyword ← wordBefore index
  modify fun c => { c with parens := ⟨index, none, keyword⟩ :: c.parens }

/-- Note an opening parenthesis where a search has found it. -/
def pushParen : Scan Unit := do
  pushParenAt (← get).lastMatch

/-- Note that a closing parenthesis has been read. -/
def popParen : Scan (Option ParenFrame) := fun c =>
  match c.parens with
  | [] => .ok none c
  | frame :: parens =>
    let frame := { frame with closed := some c.position }
    .ok (some frame) { c with parens, lastClosed := some frame }

end Scan
end Patchwork
