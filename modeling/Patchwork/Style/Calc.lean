import Patchwork.Style.Quantity

/-!
# Unit arithmetic

`Calc` is an arithmetic expression over quantities and operands only known when the generated code
runs. Its units are checked at compile time (`checkUnits`), a calculation without running operands
can be carried out there (`evaluate`), and any other is written as the body of a callback
(`render`).
-/

namespace Patchwork.Style

/-- The binary operators. -/
inductive Operator where
  | add | sub | mul | div | rem
  deriving DecidableEq, Repr

namespace Operator

def symbol : Operator → Char
  | add => '+'
  | sub => '-'
  | mul => '*'
  | div => '/'
  | rem => '%'

def all : List Operator :=
  [add, sub, mul, div, rem]

def ofChar? (c : Char) : Option Operator :=
  all.find? (·.symbol == c)

/-- Carry out the operation. -/
def apply : Operator → Float → Float → Float
  | add, x, y => x + y
  | sub, x, y => x - y
  | mul, x, y => x * y
  | div, x, y => x / y
  | rem, x, y => Decimal.remainder x y

end Operator

/-- An arithmetic expression. -/
inductive Calc where
  | literal (q : Quantity)
  /-- The source of an operand only known when the generated code runs. -/
  | running (source : Text)
  | negate (e : Calc)
  | group (e : Calc)
  | binary (op : Operator) (left right : Calc)
  deriving DecidableEq, Repr

namespace Calc

def operators : Calc → Nat
  | literal _ | running _ => 0
  | negate e => 1 + e.operators
  | group e => e.operators
  | binary _ l r => 1 + l.operators + r.operators

/-- Is some operand only known when the generated code runs? -/
def hasRunning : Calc → Bool
  | literal _ => false
  | running _ => true
  | negate e | group e => e.hasRunning
  | binary _ l r => l.hasRunning || r.hasRunning

/-- Does some literal carry a unit? -/
def hasUnit : Calc → Bool
  | literal q => q.unit.isSome
  | running _ => false
  | negate e | group e => e.hasUnit
  | binary _ l r => l.hasUnit || r.hasUnit

/-- Must the value be computed with unit arithmetic? It must when it has an operator and either a
running operand or a unit. -/
def needsArithmetic (e : Calc) : Bool :=
  0 < e.operators && (e.hasRunning || e.hasUnit)

/-- Take in the units of the literals from left to right. -/
def absorbUnits : Calc → UnitScope → Except UnitClash UnitScope
  | literal q, scope => (scope.absorb q).map Prod.snd
  | running _, scope => .ok scope
  | negate e, scope | group e, scope => e.absorbUnits scope
  | binary _ l r, scope => l.absorbUnits scope >>= r.absorbUnits

/-- Do the literals agree in their units? -/
def checkUnits (e : Calc) : Except UnitClash Unit :=
  (e.absorbUnits none).map fun _ => ()

/-- The number, and the units seen. A running operand has no number. -/
def evalIn : Calc → UnitScope → Except UnitClash (Float × UnitScope)
  | literal q, scope => scope.absorb q
  | running _, scope => .ok (0.0 / 0.0, scope)
  | negate e, scope => (e.evalIn scope).map fun p => (-p.1, p.2)
  | group e, scope => e.evalIn scope
  | binary op l r, scope => do
    let (x, scope) ← l.evalIn scope
    let (y, scope) ← r.evalIn scope
    return (op.apply x y, scope)

/-- Carry out a calculation without running operands. There is no answer when there is one, or when
the result is not a finite number. -/
def evaluate (e : Calc) : Except UnitClash (Option Quantity) :=
  if e.hasRunning then .ok none
  else (e.evalIn none).map fun p => if p.1.isFinite then some (p.2.finish p.1) else none

/-- The body of a callback that computes the value. `strip` takes off and records the unit of each
operand that has or may have one. -/
def render (strip : Text) : Calc → Text
  | literal q =>
    if q.unit.isSome then strip ++ "(\"" ++ q.render ++ "\")" else q.render
  | running source => strip ++ '(' :: source ++ [')']
  | negate e => '-' :: e.render strip
  | group e => '(' :: e.render strip ++ [')']
  | binary op l r => l.render strip ++ [' ', op.symbol, ' '] ++ r.render strip

end Calc
end Patchwork.Style
