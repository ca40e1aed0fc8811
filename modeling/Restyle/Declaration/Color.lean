import Restyle.Numeric.Decimal
import Restyle.Numeric.Plain
import Restyle.Numeric.Shortest
import Restyle.Text.Letter
import Restyle.Text.Substitution

/-! # Colour tokens

Colour tokens used to come with a second token, named with `-hsl` at its end,
for use inside `hsl( )`. Such a use is written as the plain token, mixed with
transparency if there was an alpha value.
-/

namespace Restyle.Declaration

open Text

/-- A use of a custom property, as `var(--name)`: the run of name characters and the rest. -/
def usedName? (t : Text) : Option (Text × Text) := do
  let t ← dropWord? "var(" t
  let t ← dropStart? (trimStart t) "--"
  let rest ← dropStart? (trimStart (t.dropWhile isFoldedNameChar)) ")"
  return (t.takeWhile isFoldedNameChar, rest)

/-- A use of a custom property whose name ends in `-hsl`: the name without that end. -/
def hslVariable? (t : Text) : Option (Text × Text) := do
  let (name, rest) ← usedName? t
  let name ← dropWordEnd? "-hsl" name
  if name.isEmpty then none else return (lower name, rest)

def useOf (name : Text) : Text :=
  "var(--" ++ name ++ ")"

/-- A number without zeros at the end of its fraction. -/
def trimFraction (t : Text) : Text :=
  if t.contains "." then dropEndWhile (· == '.') (dropEndWhile (· == '0') t) else t

def isPlainPercentage (t : Text) : Bool :=
  match t.reverse with
  | '%' :: number => isPlainNumber number.reverse && !t.startsWith "-"
  | _ => false

/-- A number up to one counts a hundredfold; the result lies between 0 and 100 and has at most
four decimal places. -/
def percentage (x : Binary64) : Text :=
  let x := if x.leNat 1 then x.scale 100 else x
  match x with
  | .finite negative m e =>
    if negative && m ≠ 0 then "0%"
    else if !x.leNat 100 then "100%"
    else (if negative then "-" else "") ++ trimFraction (Binary64.fixedPlaces 4 m e) ++ "%"
  | _ => "100%"

/-- An alpha value as a percentage. -/
def alphaPercentage (alpha : Text) : Text :=
  let alpha := trim alpha
  if alpha.isEmpty then "100%"
  else if isPlainPercentage alpha then alpha
  else match Binary64.ofText? alpha with
    | some x =>
      if x.isFinite then percentage x else "calc(" ++ alpha ++ " * 100%)"
    | none => "calc(" ++ alpha ++ " * 100%)"

/-- A use inside `hsl( )`, with or without an alpha value behind a slash. -/
def hslFunction : Recogniser Text := fun _ t => do
  let t ← dropWord? "hsl(" t
  let (name, t) ← hslVariable? (trimStart t)
  match trimStart t with
  | ')' :: rest => return (useOf name, rest)
  | '/' :: t =>
    let alpha := t.takeWhile (· ≠ ')')
    let rest ← dropStart? (t.dropWhile (· ≠ ')')) ")"
    if alpha.isEmpty then none
    else
      return ("color-mix(in oklab, " ++ useOf name ++ " " ++ alphaPercentage alpha ++
        ", transparent)", rest)
  | _ => none

def bareHsl : Recogniser Text := fun _ t =>
  (hslVariable? t).map fun (name, rest) => (useOf name, rest)

/-- Write every bare use of a token that ends in `-hsl` as a use of the plain token. -/
def replaceBareHsl (css : Text) : Text :=
  substitute bareHsl css

/-- Write every use of a token that ends in `-hsl`, inside `hsl( )` or bare. -/
def replaceHsl (css : Text) : Text :=
  if (lower css).contains "-hsl" then replaceBareHsl (substitute hslFunction css) else css

/-- A use of a token that ends in `-trans-` and up to three digits: its name without that end, and
the percentage, at most 100. -/
def transparency : Recogniser Text := fun _ t => do
  let (name, rest) ← usedName? t
  let digits := (name.reverse.takeWhile Char.isDigit).reverse
  let name ← dropWordEnd? "-trans-" (name.take (name.length - digits.length))
  if name.isEmpty || digits.isEmpty || 3 < digits.length then none
  else
    let percent := Text.ofNat (min 100 (Decimal.ofDigits digits))
    return ("color-mix(in oklch, " ++ useOf (lower name) ++ " " ++ percent ++ "%, transparent)",
      rest)

end Restyle.Declaration
