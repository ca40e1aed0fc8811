import Restyle.Text.Substitution

/-! # Checking and mending a stylesheet

The check only counts: braces have to come in equal numbers and quotes of
either kind in even numbers. Mending drops a semicolon that stands alone behind
another and writes every run of white space as one space.
-/

namespace Restyle

open Text

inductive SheetFault where
  | braces
  | singleQuotes
  | doubleQuotes
  deriving DecidableEq, Repr

namespace SheetFault

def message : SheetFault → Text
  | braces => "unclosed CSS brackets"
  | singleQuotes => "unclosed single quotes"
  | doubleQuotes => "unclosed double quotes"

/-- Whether a stylesheet has a fault. -/
def occurs (css : Text) : SheetFault → Bool
  | braces => css.count '{' ≠ css.count '}'
  | singleQuotes => css.count '\'' % 2 = 1
  | doubleQuotes => css.count '"' % 2 = 1

def faults (css : Text) : List SheetFault :=
  [braces, singleQuotes, doubleQuotes].filter (occurs css)

end SheetFault

/-- The stylesheet without needless semicolons and white space. -/
def mendSheet (css : Text) : Text :=
  join " " (words (replace css "; ;" ";"))

end Restyle
