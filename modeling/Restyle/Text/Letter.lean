import Restyle.Text.Basic
import Restyle.Text.CaseFold

/-! # Letters in any case

Words are recognised whatever the case of their letters. Two characters
outside ASCII fold to an ASCII letter, the long s and the Kelvin sign, and so
count as letters of names.
-/

namespace Restyle.Text

/-- Characters that fold to a name character. -/
def isFoldedNameChar (c : Char) : Bool :=
  isNameChar (fold c)

/-- Characters that fold to an ASCII letter. -/
def isFoldedLetter (c : Char) : Bool :=
  (fold c).isAlpha

/-- The rest of the text behind a word, in any case. -/
def dropWord? : Text → Text → Option Text
  | [], t => some t
  | _ :: _, [] => none
  | l :: word, c :: t => if fold l = fold c then dropWord? word t else none

/-- The first of some words that opens the text, and the rest behind it. -/
def dropAnyWord? (words : List Text) (t : Text) : Option (Text × Text) :=
  words.findSome? fun w => (dropWord? w t).map (w, ·)

/-- The text before a word at its end, in any case. -/
def dropWordEnd? (word t : Text) : Option Text :=
  (dropWord? word.reverse t.reverse).map List.reverse

end Restyle.Text
