import Restyle.Selector.Basic

/-! # Nested selectors

Inside the rule of a token a selector is written relative to the token, which
is `&` there. Text that follows the token keeps its combinator; white space in
front of it means a descendant.
-/

namespace Restyle.Selector

open Text

def isCombinator (c : Char) : Bool :=
  c == '>' || c == '+' || c == '~'

def startsBlank : Text → Bool
  | [] => false
  | c :: _ => isBlank c

/-- One selector that follows the token, after replacing the token inside it. -/
def nestPart (descendant : Bool) : Text → Text
  | [] => "&"
  | c :: t =>
    if c = '&' then c :: t
    else if isCombinator c then trimEnd ("& " ++ c :: ' ' :: trimStart t)
    else if descendant && (c == '.' || c == '#' || c.isAlpha || c == '*') then "& " ++ c :: t
    else '&' :: c :: t

/-- The nested form of the text that follows a token. -/
def nestSuffix (raw token : Text) : Text :=
  let suffix := trim raw
  if suffix.isEmpty then "&"
  else
    join ", " ((splitList (replaceToken suffix token "&")).map (nestPart (startsBlank raw)))

/-- A selector relative to a token that occurs in it. -/
def relativeTo? (selector token : Text) : Option Text :=
  match cutToken? selector token with
  | none => none
  | some ([], rest) => some (nestSuffix rest token)
  | some _ => some (replaceToken selector token "&")

end Restyle.Selector
