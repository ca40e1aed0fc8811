import Restyle.Text.Basic
import Restyle.Numeric.Binary64

/-! # Decimal texts of binary numbers

The shortest text has the fewest digits that read back as the same number, and
of those the digits nearest to it. The fixed text rounds the exact value to a
number of decimal places, ties to even.
-/

namespace Restyle.Binary64

/-- The reals that round to a number: the closed interval `low / den`, `high / den`, whose
ends belong to it if `closed` holds; `value / den` is the number itself. -/
structure Neighbourhood where
  low : Nat
  value : Nat
  high : Nat
  den : Nat
  closed : Bool

/-- The gap below a power of two is half the gap above it. -/
def neighbourhood (m : Nat) (e : Int) : Neighbourhood :=
  let below := if m = leadingBit ∧ -1074 < e then 1 else 2
  let (low, den) := scaleRatio 2 (4 * m - below) 4 e
  let (value, _) := scaleRatio 2 (4 * m) 4 e
  let (high, _) := scaleRatio 2 (4 * m + 2) 4 e
  ⟨low, value, high, den, m % 2 = 0⟩

/-- Whether `digit * 10 ^ power` rounds to the number. -/
def Neighbourhood.holds (b : Neighbourhood) (digits : Nat) (power : Int) : Bool :=
  let (n, d) := scaleRatio 10 digits 1 power
  let low := b.low * d
  let high := b.high * d
  let x := n * b.den
  (low < x && x < high) || (b.closed && (x = low || x = high))

/-- The power of ten of the leading digit of a positive quotient. -/
def leadingPower (num den : Nat) : Int :=
  let guess : Int := ((Nat.repr num).length : Int) - (Nat.repr den).length
  let (n, d) := scaleRatio 10 num den (-guess)
  if n < d then guess - 1 else guess

/-- The better of the two points next to the number on the grid of multiples of
`10 ^ power`, if one of them rounds to it. -/
def Neighbourhood.onGrid? (b : Neighbourhood) (power : Int) : Option Nat :=
  let (n, d) := scaleRatio 10 b.value b.den (-power)
  let below := n / d
  let nearest := roundDiv n d
  let other := if nearest = below then below + 1 else below
  if b.holds nearest power then some nearest
  else if b.holds other power then some other
  else none

/-- Try ever finer grids, at most `fuel` of them. -/
def Neighbourhood.search (b : Neighbourhood) : Nat → Int → Nat × Int
  | 0, power => (b.value / b.den, power)
  | fuel + 1, power =>
    match b.onGrid? power with
    | some digits => (digits, power)
    | none => b.search fuel (power - 1)

/-- The fewest significant digits of a positive number, and the power of ten of the last. -/
def shortestDigits (m : Nat) (e : Int) : Nat × Int :=
  let b := neighbourhood m e
  b.search 18 (leadingPower b.value b.den)

/-- Digits at powers of ten down to `power`, without zeros at their end. -/
def dropZeros (digits : Text) (power : Int) : Text × Int :=
  let kept := Text.dropEndWhile (· == '0') digits
  (kept, power + (digits.length - kept.length : Nat))

/-- Plain decimals down to the fifth place and up to sixteen digits before the point, with at
least one digit behind it; an exponent beyond that. -/
def layout (digits : Text) (power : Int) : Text :=
  let point : Int := digits.length + power
  if 0 ≤ power ∧ point ≤ 16 then
    digits ++ List.replicate power.toNat '0' ++ ".0"
  else if 0 < point ∧ point ≤ 16 then
    digits.take point.toNat ++ "." ++ digits.drop point.toNat
  else if -5 < point ∧ point ≤ 0 then
    "0." ++ List.replicate (-point).toNat '0' ++ digits
  else
    let exponent := point - 1
    let fraction := if digits.length = 1 then ([] : Text) else '.' :: digits.drop 1
    let sign : Text := if exponent < 0 then "-" else "+"
    digits.take 1 ++ fraction ++ "e" ++ sign ++ Text.ofNat exponent.natAbs

/-- The shortest text of a number. -/
def toText : Binary64 → Text
  | .finite negative m e =>
    let sign : Text := if negative then "-" else ""
    if m = 0 then sign ++ "0.0"
    else
      let (digits, power) := shortestDigits m e
      let (digits, power) := dropZeros (Text.ofNat digits) power
      sign ++ layout digits power
  | .infinite negative => if negative then "-inf" else "inf"
  | .nan => "nan"

/-- The magnitude of a finite number to a fixed number of decimal places. -/
def fixedPlaces (places m : Nat) (e : Int) : Text :=
  let (n, d) := magnitude m e
  let scaled := Text.ofNat (roundDiv (n * Nat.pow 10 places) d)
  let padded := List.replicate (places + 1 - scaled.length) '0' ++ scaled
  let whole := padded.length - places
  padded.take whole ++ "." ++ padded.drop whole

end Restyle.Binary64
