import Restyle.Declaration.Color
import Restyle.Declaration.Quad

/-! # Framework tokens

Custom properties and classes of an older framework are renamed, gaps and
shorthands are tidied, and transparency tokens become colour mixes.
-/

namespace Restyle.Declaration

open Text

/-- A use of one custom property. -/
def useOfNamed (name new : Text) : Recogniser Text := fun _ t => do
  let (used, rest) ← usedName? t
  if used.map fold = name then return (new, rest) else none

def cardPadding : Recogniser Text := fun _ t => do
  let rest ← dropWord? "--fr-card-padding" t
  let rest ← dropStart? (trimStart rest) ":"
  return ("--card-padding:", rest)

def frameworkClass : Recogniser Text := fun _ t => do
  let rest ← dropStart? t ".fr-"
  match rest with
  | c :: _ => if isNameChar c then return (".", rest) else none
  | [] => none

def replaceVariables (css : Text) : Text :=
  let css := substitute gapPair (substitute gapWord css)
  let css := collapseShorthands css
  let css := substitute (useOfNamed "fr-container-gap" "var(--container-gap)") css
  let css := substitute (useOfNamed "fr-card-gap" "var(--card-gap, var(--content-gap))") css
  let css := substitute cardPadding css
  let css := substitute (useOfNamed "fr-card-padding" "var(--card-padding)") css
  let css := css.replace "[class*=brxe-]" []
  substitute transparency (substitute frameworkClass css)

end Restyle.Declaration
