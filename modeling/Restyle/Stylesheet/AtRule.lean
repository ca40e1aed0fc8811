import Restyle.Breakpoint.Condition

/-! # Conditional at-rules

Rules inside `@media`, `@container` and `@supports` hold under a condition.
The keyword is written in lower case, and pixels in the conditions of the
first two are written in range form.
-/

namespace Restyle.AtRule

open Text

/-- The keyword at the head of a prelude, and the rest. -/
def splitKeyword (prelude : Text) : Text × Text :=
  let ends c := isBlank c || c == '('
  (prelude.takeWhile (!ends ·), prelude.dropWhile (!ends ·))

/-- The normalized prelude of a conditional at-rule. -/
def condition? (prelude : Text) : Option Text :=
  let (keyword, rest) := splitKeyword prelude
  let keyword := lower keyword
  let condition := trim rest
  if keyword = "@media" ∨ keyword = "@container" then
    some (keyword ++ " " ++ Condition.normalize condition)
  else if keyword = "@supports" then some (keyword ++ " " ++ condition)
  else none

end Restyle.AtRule
