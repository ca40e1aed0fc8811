import Restyle.Declaration.GridPlacement

/-! # Gaps

A gap whose value is a bare word has no meaning unless the word is one that
every property takes. Equal row and column gaps that follow each other are
written as one.
-/

namespace Restyle.Declaration

open Text

def wideKeywords : List Text :=
  ["normal", "inherit", "initial", "unset", "revert", "revert-layer"]

/-- Whether a name goes on across a character before it. -/
def nameBefore (before : Option Char) : Bool :=
  before.any isNameChar

/-- A property name out of some, and the rest behind its colon. -/
def property? (names : List Text) (t : Text) : Option (Text × Text) := do
  let (name, t) ← dropAnyWord? names t
  let rest ← dropStart? (trimStart t) ":"
  return (name, rest)

/-- A gap whose value is a bare word; its name may be the end of a longer one. -/
def gapWord : Recogniser Text := fun before t => do
  if !wordMayStart before then none
  let (name, rest) ← property? ["row-gap", "column-gap", "gap"] t
  let value := (trimStart rest).takeWhile isFoldedNameChar
  let rest ← dropStart? (trimStart ((trimStart rest).dropWhile isFoldedNameChar)) ";"
  if !(value.head?.any isFoldedLetter) then none
  if nameBefore before then return (t.take (t.length - rest.length), rest)
  let value := lower value
  return (if wideKeywords.contains value then name ++ ": " ++ value ++ ";" else [], rest)

/-- The raw value up to the semicolon that ends a declaration, and the rest behind it. -/
def value? (t : Text) : Option (Text × Text) := do
  let isEnd c := c == ';' || c == '{' || c == '}'
  let value := t.takeWhile (!isEnd ·)
  let rest ← dropStart? (t.dropWhile (!isEnd ·)) ";"
  if value.isEmpty then none else return (value, rest)

/-- Two row or column gaps in a row. -/
def gapPair : Recogniser Text := fun before t => do
  if !wordMayStart before then none
  let (first, rest) ← property? ["row-gap", "column-gap"] t
  let (firstValue, rest) ← value? rest
  let (second, rest) ← property? ["row-gap", "column-gap"] (trimStart rest)
  let (secondValue, rest) ← value? rest
  if first ≠ second ∧ trim firstValue = trim secondValue then
    return ("gap: " ++ trim firstValue ++ ";", rest)
  else return (t.take (t.length - rest.length), rest)

end Restyle.Declaration
