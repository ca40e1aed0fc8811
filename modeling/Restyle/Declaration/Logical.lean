import Restyle.Declaration.Variable
import Restyle.Table

/-! # Logical properties

Properties that name a side of the screen are renamed to those that name a
side of the text flow. Custom properties, longer names and the preludes of
`@media` and `@container` are left as they are.
-/

namespace Restyle.Declaration

open Text

def logicalNames : Table Text :=
  [("margin-top", "margin-block-start"), ("margin-right", "margin-inline-end"),
    ("margin-bottom", "margin-block-end"), ("margin-left", "margin-inline-start"),
    ("padding-top", "padding-block-start"), ("padding-right", "padding-inline-end"),
    ("padding-bottom", "padding-block-end"), ("padding-left", "padding-inline-start"),
    ("border-top", "border-block-start"), ("border-right", "border-inline-end"),
    ("border-bottom", "border-block-end"), ("border-left", "border-inline-start"),
    ("min-width", "min-inline-size"), ("min-height", "min-block-size"),
    ("max-width", "max-inline-size"), ("max-height", "max-block-size"),
    ("width", "inline-size"), ("height", "block-size"), ("top", "inset-block-start"),
    ("right", "inset-inline-end"), ("bottom", "inset-block-end"), ("left", "inset-inline-start")]

/-- The prelude of an at-rule about sizes, up to its brace or semicolon. -/
def sizePrelude? (t : Text) : Option (Text × Text) :=
  let isEnd c := c == '{' || c == ';'
  if (lower t).startsWith "@media" || (lower t).startsWith "@container" then
    some (t.takeWhile (!isEnd ·), t.dropWhile (!isEnd ·))
  else none

/-- A physical property name and its colon; it stays if it is the end of a longer name. -/
def physicalProperty? (before : Option Char) (t : Text) : Option (Text × Text) :=
  logicalNames.findSome? fun (physical, logical) =>
    (property? [physical] t).map fun (_, rest) =>
      (if nameBefore before then t.take (t.length - rest.length) else logical ++ ":", rest)

def logicalProperty : Recogniser Text := fun before t =>
  match t with
  | '@' :: _ => sizePrelude? t
  | _ => physicalProperty? before t

/-- Rename physical properties, after the tokens of the framework. -/
def toLogical (css : Text) : Text :=
  substitute logicalProperty (replaceVariables css)

end Restyle.Declaration
