import Patchwork.Decimal.Dyadic
import Patchwork.Text.Basic

/-!
# The shortest decimal

`Shortest.render` writes a double in positional notation with the fewest digits that read back as
the same double. Of several such decimals it takes the one nearest to the double, and of two
equally near ones the larger.

The selection is exact. A positive double `m · 2^q` is what every real number between the middles
to its two neighbours rounds to; the middles count when `m` is even. For one digit, two digits and
so on, the two neighbours of the double on that decimal grid are tested against this interval.
-/

namespace Patchwork.Decimal.Shortest

/-- The reals that round to a positive double, over one denominator: `value`, `low` and `high`
count multiples of `1 / denominator`. -/
structure Interval where
  low : Nat
  value : Nat
  high : Nat
  denominator : Nat
  closed : Bool
  deriving DecidableEq, Repr

/-- The interval of a positive double. Below a power of two the neighbour is half as far. -/
def Interval.ofDyadic (d : Dyadic) : Interval :=
  let scale := Nat.pow 2 (d.exponent - 2).toNat
  let below := if d.mantissa == Nat.pow 2 52 && Dyadic.leastExponent < d.exponent then 1 else 2
  { low := (4 * d.mantissa - below) * scale
    value := 4 * d.mantissa * scale
    high := (4 * d.mantissa + 2) * scale
    denominator := Nat.pow 2 (2 - d.exponent).toNat
    closed := d.mantissa % 2 == 0 }

/-- Does the interval hold `n · 10^k`? -/
def Interval.holds (i : Interval) (n : Nat) (k : Int) : Bool :=
  let point := n * Nat.pow 10 k.toNat * i.denominator
  let unit := Nat.pow 10 (-k).toNat
  if i.closed then i.low * unit ≤ point && point ≤ i.high * unit
  else i.low * unit < point && point < i.high * unit

/-- The exponent `e` for which the value lies from `10^(e-1)` up to but not including `10^e`. -/
def Interval.magnitude (i : Interval) : Int :=
  if i.denominator ≤ i.value then (Nat.toDigits 10 (i.value / i.denominator)).length
  else 1 - ((Nat.toDigits 10 ((i.denominator - 1) / i.value)).length : Int)

/-- The decimal `n · 10^k` of the interval that lies on the grid of `10^k` and is nearest to the
value, if the interval holds one of the value's two neighbours there. -/
def Interval.onGrid? (i : Interval) (k : Int) : Option Nat :=
  let whole := i.denominator * Nat.pow 10 k.toNat
  let scaled := i.value * Nat.pow 10 (-k).toNat
  let n := scaled / whole
  match i.holds n k, i.holds (n + 1) k with
  | true, true => if 2 * (scaled % whole) < whole then some n else some (n + 1)
  | true, false => some n
  | false, true => some (n + 1)
  | false, false => none

/-- Try the grids of `digits`, `digits + 1`, … digits. Seventeen always suffice. A value just below
a power of ten may be nearest to that power, which one digit writes. -/
def Interval.select (i : Interval) (digits : Nat) : Nat → Nat × Int
  | 0 => (0, 0)
  | fuel + 1 =>
    let k := i.magnitude - digits
    match i.onGrid? k with
    | some n => if n == Nat.pow 10 digits then (1, k + digits) else (n, k)
    | none => i.select (digits + 1) fuel

/-- The number `n · 10^k` in positional notation. -/
def positional (n : Nat) (k : Int) : Text :=
  let digits := Text.ofNat n
  if 0 ≤ k then digits ++ List.replicate k.toNat '0'
  else
    let places := (-k).toNat
    if places < digits.length then
      digits.take (digits.length - places) ++ '.' :: digits.drop (digits.length - places)
    else "0." ++ List.replicate (places - digits.length) '0' ++ digits

/-- A double in positional notation. Whole numbers have no point, and a zero keeps its sign. -/
def render (x : Float) : Text :=
  match Dyadic.ofFloat? x with
  | some d =>
    let sign : Text := if d.negative then ['-'] else []
    if d.mantissa == 0 then sign ++ ['0']
    else
      let (n, k) := (Interval.ofDyadic d).select 1 17
      sign ++ positional n k
  | none => if x.isNaN then "NaN" else if x < 0 then "-inf" else "inf"

end Patchwork.Decimal.Shortest
