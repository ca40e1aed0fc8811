import Restyle.Text.Digit
import Restyle.Text.Letter
import Restyle.Text.Substitution
import Restyle.Text.WordChar

/-! # Grid placement

A span followed by an end line, as `grid-column: span 2 / -1`, is no valid
placement. The number of the span is taken as the start line.
-/

namespace Restyle.Declaration

open Text

/-- Whether a word can start behind a character. -/
def wordMayStart (before : Option Char) : Bool :=
  !before.any isWordChar

/-- The end line of a placement, what closes its declaration, and the rest. Of white space
before a closing brace nothing is lost. -/
def endLine? (t : Text) : Option (Text × Text × Text) :=
  let isEnd c := c == ';' || c == '}'
  let line := t.takeWhile (!isEnd ·)
  match t.dropWhile (!isEnd ·) with
  | [] => none
  | c :: rest =>
    let kept := trimEnd line
    if line.isEmpty then none
    else if c = ';' || kept.isEmpty then some (trim line, [c], rest)
    else some (trimStart kept, line.drop kept.length ++ [c], rest)

/-- A placement with a span and an end line. -/
def gridPlacement : Recogniser Text := fun before t => do
  if !wordMayStart before then none
  let (name, t) ← dropAnyWord? ["grid-column", "grid-row"] t
  let t ← dropStart? (trimStart t) ":"
  let t ← dropWord? "span" (trimStart t)
  let digits := trimStart t
  if digits.length = t.length then none
  let number := digits.takeWhile isDigit
  if number.isEmpty then none
  let t ← dropStart? (trimStart (digits.dropWhile isDigit)) "/"
  let (line, closing, rest) ← endLine? t
  return (name ++ ": " ++ number ++ " / " ++ line ++ closing, rest)

def fixGridPlacement (css : Text) : Text :=
  substitute gridPlacement css

end Restyle.Declaration
