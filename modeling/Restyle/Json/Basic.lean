import Restyle.Table
import Restyle.Numeric.Stepwise
import Restyle.Numeric.Shortest

/-! # JSON values

An object is kept as it was written, repeated names included. `merged` reads
every object as an ordered table.
-/

namespace Restyle

/-- An integer that 64 bits hold is exact, any other number is binary. -/
inductive Number where
  | integer (n : Int)
  | real (x : Binary64)
  deriving DecidableEq, Repr

namespace Number

def integerText : Int → Text
  | .ofNat n => Text.ofNat n
  | .negSucc n => '-' :: Text.ofNat (n + 1)

def toText : Number → Text
  | .integer n => integerText n
  | .real x => x.toText

def isZero : Number → Bool
  | .integer n => n = 0
  | .real x => x.isZero

/-- Integers from `-2 ^ 63` to `2 ^ 64 - 1`. -/
def fits (n : Int) : Bool :=
  -0x8000000000000000 ≤ n && n < 0x10000000000000000

/-- A sign, digits without a needless zero, an optional fraction and an optional exponent. Such a
word has no number if that would be infinite. -/
def ofWord? (word : Text) : Option (Option Number) :=
  let (negative, t) := match word with
    | '-' :: t => (true, t)
    | t => (false, t)
  let (whole, rest) := Decimal.spanDigits t
  let plain := match whole with
    | [] => false
    | ['0'] => true
    | c :: _ => c ≠ '0'
  let point := match rest with
    | '.' :: c :: _ => c.isDigit
    | '.' :: [] => false
    | _ => true
  if !plain || !point then none
  else
    let n : Int := if negative then -(Decimal.ofDigits whole : Int) else Decimal.ofDigits whole
    if rest.isEmpty && fits n && !(negative && n = 0) then some (some (.integer n))
    else (Decimal.numeral? t).map fun n => (n.number? negative).map .real

end Number

inductive Json where
  | null
  | bool (b : Bool)
  | number (n : Number)
  | string (t : Text)
  | array (items : List Json)
  | object (entries : List (Text × Json))
  deriving Inhabited

namespace Json

mutual

/-- Of a repeated name the first place and the last value are kept, in every object. -/
def merged : Json → Json
  | array items => array (mergedItems items)
  | object entries => object (Table.ofList (mergedEntries entries))
  | j => j

def mergedItems : List Json → List Json
  | [] => []
  | j :: items => j.merged :: mergedItems items

def mergedEntries : List (Text × Json) → List (Text × Json)
  | [] => []
  | (k, j) :: entries => (k, j.merged) :: mergedEntries entries

end

/-- The value of a name in an object. -/
def get? (j : Json) (name : Text) : Option Json :=
  match j with
  | object entries => (Table.ofList entries).get? name
  | _ => none

end Json

end Restyle
