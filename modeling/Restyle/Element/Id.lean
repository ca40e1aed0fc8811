import Restyle.Content.Basic

/-! # Element ids

An element keeps its id with another mark before it: `brxe-` in the source,
`etch-` in the target.
-/

namespace Restyle.Element

open Text

def sourceMark : Text := "brxe-"

def targetMark : Text := "etch-"

def bareId (id : Text) : Text :=
  id.trim.dropWhile (· == '#')

/-- The target id; a bare id keeps its name characters only. -/
def targetId (id : Text) : Text :=
  let id := bareId id
  if id.startsWith targetMark then id
  else match id.dropStart? sourceMark with
    | some rest => targetMark ++ rest
    | none =>
      let clean := id.filter isNameChar
      if clean.isEmpty then [] else targetMark ++ clean

/-- The selector of the element in the source. -/
def rootSelector (id : Text) : Text :=
  let id := bareId id
  if id.isEmpty then []
  else if id.startsWith sourceMark then '#' :: id
  else '#' :: sourceMark ++ (id.dropStart? targetMark).getD id

end Restyle.Element
