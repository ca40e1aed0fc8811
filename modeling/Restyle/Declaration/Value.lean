import Restyle.Declaration.Color
import Restyle.Declaration.GridPlacement
import Restyle.Numeric.Plain

/-! # Values

Plain numbers gain the unit of their place: pixels for a border width, a
percentage for a gradient stop. The text of a `content` property is quoted
unless it is a keyword, a function or quoted already.
-/

namespace Restyle.Declaration

open Text

/-- One border width; a zero has no unit. -/
def borderWidth (t : Text) : Text :=
  let t := trim t
  if !isPlainNumber t then t
  else if (t.dropWhile (· == '-')).all fun c => c == '0' || c == '.' then "0"
  else t ++ "px"

/-- One or more border widths. -/
def borderWidths (t : Text) : Text :=
  let t := trim t
  if !t.isEmpty && t.all (fun c => c.isDigit || c == '.' || isBlank c) then
    join " " (t.words.map borderWidth)
  else borderWidth t

def gradientStop (t : Text) : Text :=
  let t := trim t
  if isPlainNumber t then t ++ "%" else t

def contentKeywords : List Text :=
  ["normal", "none", "open-quote", "close-quote", "no-open-quote", "no-close-quote", "inherit",
    "initial", "unset", "revert", "revert-layer"]

def contentFunctions : List Text :=
  ["attr", "counter", "counters"]

/-- A call of a function that makes content. -/
def isContentFunction (t : Text) : Bool :=
  contentFunctions.any fun name => ((dropWord? name t).map trimStart).any (·.head? == some '(')

/-- At least two characters, the first and the last the same quote. -/
def isQuoted : Text → Bool
  | [] => false
  | c :: t => (c == '"' || c == '\'') && t.getLast? == some c

/-- A backslash before every backslash and every double quote. -/
def escapeContent (t : Text) : Text :=
  t.flatMap fun c => if c = '\\' ∨ c = '"' then ['\\', c] else [c]

def contentValue (t : Text) : Text :=
  let t := trim t
  if t.isEmpty then []
  else if contentKeywords.contains (lower t) then lower t
  else if isContentFunction t || isQuoted t then t
  else '"' :: escapeContent t ++ "\""

/-- The last pass over every style body. -/
def finalCss (css : Text) : Text :=
  fixGridPlacement (replaceHsl css)

/-- Drop repeated semicolons. -/
def tidyCustomCss (css : Text) : Text :=
  trim (squeezeSemicolons (css.replace "; ;" ";"))

end Restyle.Declaration
