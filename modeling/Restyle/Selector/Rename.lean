import Restyle.Text.Letter
import Restyle.Text.Substitution

/-! # Renaming element ids

Ids that start with `brxe-`, in any letter case, start with `etch-` instead.
-/

namespace Restyle.Selector

open Text

def builderId : Recogniser Text := fun _ t => do
  let rest ← match t with
    | '#' :: t => dropWord? "brxe-" t
    | _ => none
  let name := rest.takeWhile isFoldedNameChar
  if name.isEmpty then none
  else return ("#etch-" ++ name, rest.dropWhile isFoldedNameChar)

def renameIds (css : Text) : Text :=
  substitute builderId css

end Restyle.Selector
