import Patchwork.Decimal.Numeral
import Patchwork.Decimal.Shortest

/-!
# Quantities

A quantity is a number with an optional unit of measure, such as `10px` or `1.5`. `Quantity.parse?`
reads one and `Quantity.render` writes one. `UnitScope` collects the units of the operands of one
calculation, all of which must agree.
-/

namespace Patchwork.Style

/-- The units that arithmetic understands. -/
inductive Measure where
  | px | percent | rem | em | second | pt | vh | vw | vmin | vmax | cm | mm | inch | pc | ex | ch
  deriving DecidableEq, Repr

namespace Measure

/-- How the unit is written. -/
def text : Measure → Text
  | px => "px"
  | percent => "%"
  | rem => "rem"
  | em => "em"
  | second => "s"
  | pt => "pt"
  | vh => "vh"
  | vw => "vw"
  | vmin => "vmin"
  | vmax => "vmax"
  | cm => "cm"
  | mm => "mm"
  | inch => "in"
  | pc => "pc"
  | ex => "ex"
  | ch => "ch"

/-- Every unit. -/
def all : List Measure :=
  [px, percent, rem, em, second, pt, vh, vw, vmin, vmax, cm, mm, inch, pc, ex, ch]

end Measure

/-- A number with an optional unit. -/
structure Quantity where
  value : Float
  unit : Option Measure
  deriving DecidableEq, Repr

namespace Quantity

def withoutUnit? (t : Text) (u : Measure) : Option Text :=
  if Text.endsWith u.text t then
    let number := t.take (t.length - u.text.length)
    if Decimal.Numeral.isNumeral number then some number else none
  else none

/-- The longest unit that leaves a numeral when it is taken off the end of a text. -/
def longestUnit? (t : Text) : Option Measure :=
  Measure.all.foldl (fun best u =>
    if best.all (fun b => b.text.length < u.text.length) && (withoutUnit? t u).isSome then some u
    else best) none

/-- Read a number with an optional unit; blanks around it do not matter. -/
def parse? (t : Text) : Option Quantity :=
  let t := Text.trim t
  match Decimal.Numeral.read? t with
  | some value => some ⟨value, none⟩
  | none => do
    let unit ← longestUnit? t
    let value ← (withoutUnit? t unit).bind Decimal.Numeral.read?
    return ⟨value, some unit⟩

/-- Numbers are written to at most four places; a half goes away from zero. -/
def renderNumber (x : Float) : Text :=
  Decimal.Shortest.render (Decimal.roundWhole (x * 10000.0) / 10000.0)

def render (q : Quantity) : Text :=
  renderNumber q.value ++ (q.unit.map Measure.text).getD []

end Quantity

/-- Two operands of one calculation carry different units. -/
structure UnitClash where
  expected : Measure
  found : Measure
  deriving DecidableEq, Repr

namespace UnitClash

def message (e : UnitClash) : Text :=
  "units '" ++ e.expected.text ++ "' and '" ++ e.found.text ++
    "' are not compatible; use the calc() css function instead"

end UnitClash

abbrev UnitScope := Option Measure

namespace UnitScope

/-- Take in an operand: its bare number, and the scope after it. -/
def absorb (scope : UnitScope) (q : Quantity) : Except UnitClash (Float × UnitScope) :=
  match q.unit, scope with
  | none, _ => .ok (q.value, scope)
  | some found, none => .ok (q.value, some found)
  | some found, some expected =>
    if expected = found then .ok (q.value, scope) else .error ⟨expected, found⟩

def finish (scope : UnitScope) (value : Float) : Quantity :=
  ⟨value, scope⟩

end UnitScope
end Patchwork.Style
