import Patchwork.Piece
import Patchwork.Style.Calc

/-!
# Arithmetic in stylesheet values

A value such as `10px + ${gap} * 2` is arithmetic when it is made only of quantities, expressions,
operators and parentheses. Everything else is a plain value: words, colors, lists such as
`1px -2px`, and shorthands such as `12px/1.5`. `Formula.parse?` tells the two apart: it cuts the
pieces of a value into tokens and reads these by precedence.
-/

namespace Patchwork.Style

/-- A token of a value. -/
inductive Token where
  | number (q : Quantity)
  | running (source : Text)
  | op (o : Operator)
  | openParen
  | closeParen
  deriving DecidableEq, Repr

def Token.endsOperand : Token → Bool
  | number _ | running _ | closeParen => true
  | op _ | openParen => false

namespace Formula

/-- The tokens read so far, the latest first, and whether a blank follows the last of them. -/
structure Reading where
  tokens : List Token := []
  space : Bool := false
  deriving DecidableEq, Repr

def Reading.afterOperand (r : Reading) : Bool :=
  r.tokens.head?.any Token.endsOperand

def Reading.push (r : Reading) (t : Token) : Reading :=
  ⟨t :: r.tokens, false⟩

/-- Does the end of the piece or a blank come next? -/
def spaced (t : Text) : Bool :=
  t.head?.all Text.isBlank

/-- May the character stand in a numeral with its unit, after the first character? -/
def inNumeral (c : Char) : Bool :=
  c.isAlphanum || c == '.' || c == '%'

/-- Does a digit or a point come next? -/
def startsNumeral (t : Text) : Bool :=
  t.head?.any fun c => c.isDigit || c == '.'

/-- Read a character before a text: what has been read then, and how many characters of the text
have been read with it. There is no answer when it is not arithmetic. -/
def readChar (r : Reading) (c : Char) (t : Text) : Option (Reading × Nat) :=
  if Text.isBlank c then some ({ r with space := true }, 0)
  else if c == '(' then
    if r.afterOperand then none else some (r.push .openParen, 0)
  else if c == ')' then some (r.push .closeParen, 0)
  else if Decimal.Numeral.isSign c && r.afterOperand then
    -- a sign that touches what follows and not what precedes begins the next value of a list
    if r.space && !spaced t then none
    else some (r.push (.op (if c == '+' then .add else .sub)), 0)
  else if c == '/' then
    if r.afterOperand && r.space && spaced t then some (r.push (.op .div), 0) else none
  else if c == '*' || c == '%' then
    if r.afterOperand then some (r.push (.op (if c == '*' then .mul else .rem)), 0) else none
  else if c.isDigit || c == '.' || Decimal.Numeral.isSign c then
    if r.afterOperand then none
    else if Decimal.Numeral.isSign c && !startsNumeral t then
      -- a sign before a group or an expression
      some (if c == '-' then r.push (.op .sub) else { r with space := false }, 0)
    else
      let more := t.takeWhile inNumeral
      (Quantity.parse? (c :: more)).map fun q => (r.push (.number q), more.length)
  else none

/-- Cut a text into tokens, after skipping some characters. There is no answer when something is
not arithmetic. -/
def readText (r : Reading) : (skip : Nat) → Text → Option Reading
  | _, [] => some r
  | skip + 1, _ :: t => readText r skip t
  | 0, c :: t => (readChar r c t).bind fun (r, skip) => readText r skip t

/-- Cut pieces into tokens. An expression is an operand and comments do not count. -/
def readPieces (r : Reading) : List Piece → Option Reading
  | [] => some r
  | .comment _ :: ps => readPieces r ps
  | .expr e :: ps => if r.afterOperand then none else readPieces (r.push (.running e.source)) ps
  | .text t :: ps => (readText r 0 t).bind fun r => readPieces r ps

def tokens? (ps : List Piece) : Option (List Token) :=
  (readPieces {} ps).map fun r => r.tokens.reverse

def power : Operator → Nat
  | .add | .sub => 2
  | .mul | .div | .rem => 4

def signPower : Nat := 6

mutual

def operand? : (fuel : Nat) → List Token → Option (Calc × List Token)
  | 0, _ => none
  | _ + 1, .number q :: ts => some (.literal q, ts)
  | _ + 1, .running source :: ts => some (.running source, ts)
  | fuel + 1, .op .sub :: ts => (expr? fuel signPower ts).map fun (e, ts) => (.negate e, ts)
  | fuel + 1, .openParen :: ts =>
    match expr? fuel 0 ts with
    | some (e, .closeParen :: ts) => some (.group e, ts)
    | _ => none
  | _ + 1, _ => none

/-- Read operands joined by operators that bind at least as strongly as `least`. -/
def expr? : (fuel : Nat) → (least : Nat) → List Token → Option (Calc × List Token)
  | 0, _, _ => none
  | fuel + 1, least, ts => (operand? fuel ts).bind fun (left, ts) => climb? fuel least left ts

/-- Go on after a left operand. The right operand takes what binds more strongly, so that operators
of one strength group to the left. -/
def climb? : (fuel : Nat) → (least : Nat) → Calc → List Token → Option (Calc × List Token)
  | 0, _, _, _ => none
  | fuel + 1, least, left, .op o :: ts =>
    if power o < least then some (left, .op o :: ts)
    else (expr? fuel (power o + 1) ts).bind fun (right, ts) =>
      climb? fuel least (.binary o left right) ts
  | _ + 1, _, left, ts => some (left, ts)

end

/-- Read a list of tokens to its end. Every token needs at most two calls, one of them nested. -/
def ofTokens? (ts : List Token) : Option Calc :=
  match expr? (2 * ts.length + 2) 0 ts with
  | some (e, []) => some e
  | _ => none

def parse? (ps : List Piece) : Option Calc :=
  (tokens? ps).bind ofTokens?

end Formula
end Patchwork.Style
