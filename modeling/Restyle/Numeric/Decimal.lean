import Restyle.Text.Letter
import Restyle.Numeric.Binary64

/-! # Decimal numerals

A numeral is an optional sign, digits with an optional point, and an optional
exponent. It is read to the nearest binary number. `Numeral` keeps the digits,
`Decimal` the exact value that was written.
-/

namespace Restyle

/-- The digits of a numeral before and behind its point, and its exponent. -/
structure Numeral where
  whole : Text
  fraction : Text
  exponent : Int
  deriving DecidableEq, Repr

/-- The exact value `± coefficient * 10 ^ exponent` of a numeral. -/
structure Decimal where
  negative : Bool
  coefficient : Nat
  exponent : Int
  deriving DecidableEq, Repr

namespace Decimal

def digitValue (c : Char) : Nat :=
  c.toNat - '0'.toNat

/-- The value of a run of ASCII digits. -/
def ofDigits (digits : Text) : Nat :=
  digits.foldl (fun n c => 10 * n + digitValue c) 0

/-- Split off the ASCII digits at the head of a text. -/
def spanDigits (t : Text) : Text × Text :=
  (t.takeWhile Char.isDigit, t.dropWhile Char.isDigit)

/-- Split off an optional sign; true is minus. -/
def spanSign : Text → Bool × Text
  | '-' :: t => (true, t)
  | '+' :: t => (false, t)
  | t => (false, t)

/-- An exponent part that takes up the whole text, or nothing at all. -/
def exponent? : Text → Option Int
  | [] => some 0
  | c :: t =>
    if c.toLower = 'e' then
      let (negative, t) := spanSign t
      let (digits, rest) := spanDigits t
      if digits.isEmpty || !rest.isEmpty then none
      else some (if negative then -(ofDigits digits : Int) else ofDigits digits)
    else none

/-- An unsigned numeral that takes up the whole text; digits may be missing on one side of
the point. -/
def numeral? (t : Text) : Option Numeral :=
  let (whole, t) := spanDigits t
  let (fraction, t) := match t with
    | '.' :: t => spanDigits t
    | t => ([], t)
  if whole.isEmpty && fraction.isEmpty then none
  else (exponent? t).map (⟨whole, fraction, ·⟩)

/-- The value of an unsigned numeral under a sign. -/
def ofUnsigned? (negative : Bool) (t : Text) : Option Decimal :=
  (numeral? t).map fun n =>
    ⟨negative, ofDigits (n.whole ++ n.fraction), n.exponent - n.fraction.length⟩

def toBinary64 (d : Decimal) : Binary64 :=
  .ofDecimal d.negative d.coefficient d.exponent

end Decimal

/-- Read a whole text as a number: a numeral, an infinity or `nan`, in any letter case. -/
def Binary64.ofText? (t : Text) : Option Binary64 :=
  let (negative, t) := Decimal.spanSign t
  let name := t.lower
  if name = "inf" ∨ name = "infinity" then some (.infinite negative)
  else if name = "nan" then some .nan
  else (Decimal.ofUnsigned? negative t).map Decimal.toBinary64

end Restyle
