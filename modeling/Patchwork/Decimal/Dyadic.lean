/-!
# Doubles as dyadic numbers

A finite double is `±m · 2^q` for a natural number `m` and an integer `q`. `Dyadic.ofFloat?` reads
this form off the bits and `Dyadic.toFloat` packs it again. On it two operations are computed
exactly: the remainder of a division that goes toward zero, and rounding to a whole number.
-/

namespace Patchwork.Decimal

/-- The number `±mantissa · 2^exponent`. -/
structure Dyadic where
  negative : Bool
  mantissa : Nat
  exponent : Int
  deriving DecidableEq, Repr

namespace Dyadic

def leastExponent : Int := -1074

/-- The parts of a finite double. -/
def ofFloat? (x : Float) : Option Dyadic :=
  let bits : Nat := x.toBits.toNat
  let negative := bits / Nat.pow 2 63 == 1
  let exponent : Nat := bits / Nat.pow 2 52 % 2048
  let fraction := bits % Nat.pow 2 52
  if exponent == 2047 then none
  else if exponent == 0 then some ⟨negative, fraction, leastExponent⟩
  else some ⟨negative, Nat.pow 2 52 + fraction, (exponent : Int) - 1075⟩

/-- The double with given parts, for a mantissa below `2^53` and an exponent of a double. -/
def toFloat (d : Dyadic) : Float :=
  let sign := if d.negative then Nat.pow 2 63 else 0
  let shift := min (52 - Nat.log2 d.mantissa) (d.exponent - leastExponent).toNat
  let mantissa := d.mantissa * Nat.pow 2 shift
  let bits :=
    if mantissa < Nat.pow 2 52 then mantissa
    else (d.exponent - shift + 1075).toNat * Nat.pow 2 52 + (mantissa - Nat.pow 2 52)
  Float.ofBits (UInt64.ofNat (sign + bits))

end Dyadic

/-- The remainder of the division of `x` by `y` that goes toward zero. It has the sign of `x`. -/
def remainder (x y : Float) : Float :=
  match Dyadic.ofFloat? x, Dyadic.ofFloat? y with
  | some a, some b =>
    if b.mantissa == 0 then 0.0 / 0.0
    else
      let q := min a.exponent b.exponent
      let m := a.mantissa * Nat.pow 2 (a.exponent - q).toNat
      let n := b.mantissa * Nat.pow 2 (b.exponent - q).toNat
      Dyadic.toFloat ⟨a.negative, m % n, q⟩
  | some _, none => if y.isNaN then y else x
  | none, _ => 0.0 / 0.0

/-- The nearest whole number; a half goes away from zero. -/
def roundWhole (x : Float) : Float :=
  match Dyadic.ofFloat? x with
  | some d =>
    if 0 ≤ d.exponent then x
    else
      let unit := Nat.pow 2 (-d.exponent).toNat
      Dyadic.toFloat ⟨d.negative, (2 * d.mantissa + unit) / (2 * unit), 0⟩
  | none => x

end Patchwork.Decimal
