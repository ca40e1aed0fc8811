/-! # Binary floating point numbers of 64 bits

A finite number is kept as its sign, an integer significand below `2 ^ 53` and
a power of two, so every operation is exact integer arithmetic followed by one
rounding to nearest, ties to even.
-/

namespace Restyle

/-- The quotient rounded to the nearest integer, ties to even. -/
def roundDiv (num den : Nat) : Nat :=
  let q := num / den
  let twice := 2 * (num % den)
  if twice < den then q
  else if den < twice then q + 1
  else q + q % 2

/-- The exact quotient `num / den` scaled by a power of `base`, as a quotient again. -/
def scaleRatio (base num den : Nat) (power : Int) : Nat × Nat :=
  match power with
  | .ofNat p => (num * base.pow p, den)
  | .negSucc p => (num, den * base.pow (p + 1))

/-- A finite number stands for `± significand * 2 ^ exponent`. -/
inductive Binary64 where
  | finite (negative : Bool) (significand : Nat) (exponent : Int)
  | infinite (negative : Bool)
  | nan
  deriving DecidableEq, Repr

namespace Binary64

/-- The least significand of a number that is not subnormal. -/
def leadingBit : Nat := 0x10000000000000

/-- The largest power of two that is at most the quotient of two positive numbers. -/
def ratioLog (num den : Nat) : Int :=
  let guess : Int := (num.log2 : Int) - den.log2
  let (n, d) := scaleRatio 2 num den (-guess)
  if n < d then guess - 1 else guess

/-- The number nearest to a quotient with a positive denominator, ties to even. -/
def ofRatio (negative : Bool) (num den : Nat) : Binary64 :=
  if num = 0 then .finite negative 0 (-1074)
  else
    let exponent := max (-1074) (ratioLog num den - 52)
    let (n, d) := scaleRatio 2 num den (-exponent)
    let m := roundDiv n d
    let (m, exponent) := if m = 2 * leadingBit then (leadingBit, exponent + 1) else (m, exponent)
    if 971 < exponent then .infinite negative else .finite negative m exponent

/-- The number nearest to `± coefficient * 10 ^ exponent`. -/
def ofDecimal (negative : Bool) (coefficient : Nat) (exponent : Int) : Binary64 :=
  let magnitude : Int := (Nat.repr coefficient).length + exponent
  if coefficient = 0 || magnitude < -400 then .finite negative 0 (-1074)
  else if 400 < magnitude then .infinite negative
  else
    let (n, d) := scaleRatio 10 coefficient 1 exponent
    ofRatio negative n d

/-- A finite number times a natural number, rounded to nearest. -/
def scale (k : Nat) : Binary64 → Binary64
  | .finite negative m e =>
    let (n, d) := scaleRatio 2 (k * m) 1 e
    ofRatio negative n d
  | x => x

/-- The product of two finite magnitudes, rounded to nearest. -/
def product (negative : Bool) (m : Nat) (e : Int) (n : Nat) (f : Int) : Binary64 :=
  let (num, den) := scaleRatio 2 (m * n) 1 (e + f)
  ofRatio negative num den

/-- The quotient of two finite magnitudes, rounded to nearest. -/
def quotient (negative : Bool) (m : Nat) (e : Int) (n : Nat) (f : Int) : Binary64 :=
  let (num, den) := scaleRatio 2 m n (e - f)
  ofRatio negative num den

/-- A finite number times, or divided by, a power of ten that is rounded itself. -/
def shift (power : Int) (x : Binary64) : Binary64 :=
  match x, ofDecimal false 1 power.natAbs with
  | .finite negative m e, .finite _ n f =>
    if power < 0 then quotient negative m e n f else product negative m e n f
  | x, _ => x

def isFinite : Binary64 → Bool
  | .finite .. => true
  | _ => false

def isZero : Binary64 → Bool
  | .finite _ m _ => m = 0
  | _ => false

/-- The magnitude of a finite number, as a quotient. -/
def magnitude (significand : Nat) (exponent : Int) : Nat × Nat :=
  scaleRatio 2 significand 1 exponent

/-- Whether a number is at most a natural number; false of `nan`. -/
def leNat (x : Binary64) (k : Nat) : Bool :=
  match x with
  | .finite negative m e =>
    let (n, d) := magnitude m e
    (negative || n ≤ k * d)
  | .infinite negative => negative
  | .nan => false

/-- The integer part of the magnitude of a finite number. -/
def wholePart (significand : Nat) (exponent : Int) : Nat :=
  let (n, d) := magnitude significand exponent
  n / d

end Binary64

end Restyle
