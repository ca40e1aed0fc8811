import Restyle.Selector.Nesting

/-! # Suffixes of settings

A setting whose key goes on with a selector suffix, as `_color:hover`, belongs
to a nested rule. Its selector is the suffix relative to the class.
-/

namespace Restyle.Suffix

open Text Selector

/-- A combinator and what it leads to. -/
def combined? : Text → Option Text
  | [] => none
  | c :: t =>
    if isCombinator c then
      let rest := trimStart t
      some (if rest.isEmpty then ['&', ' ', c] else '&' :: ' ' :: c :: ' ' :: rest)
    else none

def isClassOrId : Text → Bool
  | c :: _ => c == '.' || c == '#'
  | [] => false

/-- One selector of a suffix, relative to the class. -/
def nestPart (descendant : Bool) (t : Text) : Text :=
  if t.startsWith "&" then t
  else (combined? t).getD (if descendant && isClassOrId t then "& " ++ t else '&' :: t)

/-- The selectors of a suffix, with the class itself written as `&`. -/
def nest (raw className : Text) : Text :=
  let suffix := trim raw
  if suffix.isEmpty then []
  else
    let parts := splitList (replaceToken suffix ('.' :: className) "&")
    join ", " (parts.map (nestPart (startsBlank raw)))

/-- The nested selector of a suffix, with or without a class name. -/
def selector (suffix : Text) (className : Option Text) : Text :=
  let trimmed := trim suffix
  match className.filter (!·.isEmpty) with
  | some name => if trimmed.isEmpty then [] else nest suffix name
  | none =>
    if trimmed.isEmpty then []
    else if trimmed.startsWith "&" then trimmed
    else (combined? trimmed).getD
      (if isClassOrId trimmed then "& " ++ trimmed else '&' :: trimmed)

end Restyle.Suffix
