import Patchwork.Text.Basic

/-!
# Digits

Natural numbers written in a base up to sixteen.
-/

namespace Patchwork.Text

def digitValue (c : Char) : Nat :=
  if c.isDigit then c.toNat - 48
  else if 'a' ≤ c && c ≤ 'f' then c.toNat - 87
  else if 'A' ≤ c && c ≤ 'F' then c.toNat - 55
  else 16

/-- The number some digits write in a base, if there is a digit and each is one of the base. -/
def numeral? (base : Nat) (digits : Text) : Option Nat :=
  if digits.isEmpty || digits.any (fun c => base ≤ digitValue c) then none
  else some (digits.foldl (fun n c => n * base + digitValue c) 0)

end Patchwork.Text
