import Restyle.Text.Basic

/-! # Plain numbers

A plain number is an optional minus, ASCII digits, and optionally a point with
more digits.
-/

namespace Restyle

open Text

def isDigits (t : Text) : Bool :=
  !t.isEmpty && t.all Char.isDigit

def isPlainNumber (t : Text) : Bool :=
  let t := (t.dropStart? "-").getD t
  match cut? (· == '.') t with
  | none => isDigits t
  | some (whole, fraction) => isDigits whole && isDigits fraction

end Restyle
