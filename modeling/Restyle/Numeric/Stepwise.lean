import Restyle.Numeric.Decimal

/-! # Numerals read step by step

As many digits of a numeral as 64 bits hold make up a whole number. It is
rounded, and then multiplied or divided by a power of ten. Every step rounds,
so the result is a number near the numeral, but not always the nearest.
-/

namespace Restyle.Numeral

/-- The digits that 64 bits hold behind a coefficient, and how many are left over. -/
def absorb (coefficient : Nat) : Text → Nat × Nat
  | [] => (coefficient, 0)
  | c :: digits =>
    let next := 10 * coefficient + Decimal.digitValue c
    if next < 0x10000000000000000 then absorb next digits else (coefficient, digits.length + 1)

/-- The greatest power of ten of one step. -/
def stepLimit : Int := 308

/-- Shift the point of a number; above all steps it is lost, unless the number is zero. -/
def shiftPoint? (power : Int) (x : Binary64) : Option Binary64 :=
  if x.isZero then some x
  else if stepLimit < power then none
  else if -stepLimit ≤ power then some (x.shift power)
  else some ((x.shift (-stepLimit)).shift (max (-stepLimit) (power + stepLimit)))

/-- The number of a numeral under a sign, unless it is infinite. -/
def number? (negative : Bool) (n : Numeral) : Option Binary64 :=
  let (coefficient, skipped) := absorb 0 n.whole
  let (coefficient, unread) := absorb coefficient n.fraction
  let power := n.exponent + skipped + unread - n.fraction.length
  (shiftPoint? power (.ofRatio negative coefficient 1)).filter (·.isFinite)

end Restyle.Numeral
