import Restyle.Text.Digit
import Restyle.Text.Letter
import Restyle.Text.Substitution

/-! # Media conditions

A condition that compares a size with a number of pixels is written in range
form with the pixels inside `to-rem( )`. A condition that has `to-rem(`
already is final.
-/

namespace Restyle.Condition

open Text

/-- A number with an optional fraction at the head of a text, in digits of any script. -/
def number? (t : Text) : Option (Text × Text) :=
  let whole := t.takeWhile isDigit
  let rest := t.dropWhile isDigit
  if whole.isEmpty then none
  else match rest with
    | '.' :: t =>
      let fraction := t.takeWhile isDigit
      if fraction.isEmpty then some (whole, rest)
      else some (whole ++ '.' :: fraction, t.dropWhile isDigit)
    | _ => some (whole, rest)

/-- A number of pixels and the closing parenthesis. -/
def pixels? (t : Text) : Option (Text × Text) := do
  let (number, t) ← number? t.trimStart
  let t ← dropWord? "px" t
  match t.trimStart with
  | ')' :: t => some (number, t)
  | _ => none

/-- Write a comparison of a size with a number of pixels. -/
def comparison (size relation number : Text) : Text :=
  "(" ++ size ++ " " ++ relation ++ " to-rem(" ++ number ++ "px))"

/-- A parenthesised bound of the width, as `(min-width: 10px)`. -/
def bound (name relation : Text) : Recogniser Text := fun _ t => do
  let t ← match t with
    | '(' :: t => dropWord? name (trimStart t)
    | _ => none
  match t.trimStart with
  | ':' :: t =>
    let (number, t) ← pixels? t
    return (comparison "width" relation number, t)
  | _ => none

def relation? : Text → Option (Text × Text)
  | '>' :: '=' :: t => some (">=", t)
  | '<' :: '=' :: t => some ("<=", t)
  | '>' :: t => some (">", t)
  | '<' :: t => some ("<", t)
  | _ => none

/-- A parenthesised range, as `(inline-size >= 10px)`. -/
def range : Recogniser Text := fun _ t => do
  let t ← match t with
    | '(' :: t => some (trimStart t)
    | _ => none
  let (_, rest) ← dropAnyWord? ["width", "inline-size", "block-size"] t
  let size := lower (t.take (t.length - rest.length))
  let (relation, rest) ← relation? rest.trimStart
  let (number, rest) ← pixels? rest
  return (comparison size relation number, rest)

/-- Write every comparison with pixels in range form. -/
def normalize (condition : Text) : Text :=
  if condition.contains "to-rem(" then condition
  else
    let condition := substitute (bound "min-width" ">=") condition
    substitute range (substitute (bound "max-width" "<=") condition)

end Restyle.Condition
