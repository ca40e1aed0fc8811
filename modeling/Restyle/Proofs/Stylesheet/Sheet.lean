import Restyle.Proofs.Selector.List
import Restyle.Proofs.Selector.Token
import Restyle.Proofs.Stylesheet.Reading
import Restyle.Stylesheet.Rule

/-! # Printed stylesheets

A sheet is the tree of a stylesheet together with the white space between its
parts: style rules, conditional at-rules around more of the same, and at-rules
that hold no rules for a token. Each part is checked where it is built, so
that every sheet can be printed.
-/

namespace Restyle

open Text

structure IsPart (t : Text) : Prop extends Segment t where
  ne_nil : t ≠ []
  trimmed : Trimmed t

/-- A part without a comma outside brackets, whose brackets balance. -/
structure IsSelector (t : Text) : Prop extends IsPart t where
  single : Selector.depthBehind? 0 t = some 0

structure IsProperty (t : Text) : Prop extends IsPart t where
  colon_notMem : ':' ∉ t

instance (t : Text) : Decidable (IsPart t) :=
  decidable_of_iff (Segment t ∧ t ≠ [] ∧ Trimmed t)
    ⟨fun h => ⟨h.1, h.2.1, h.2.2⟩, fun h => ⟨h.toSegment, h.ne_nil, h.trimmed⟩⟩

instance (t : Text) : Decidable (IsSelector t) :=
  decidable_of_iff (IsPart t ∧ Selector.depthBehind? 0 t = some 0)
    ⟨fun h => ⟨h.1, h.2⟩, fun h => ⟨h.toIsPart, h.single⟩⟩

instance (t : Text) : Decidable (IsProperty t) :=
  decidable_of_iff (IsPart t ∧ ':' ∉ t)
    ⟨fun h => ⟨h.1, h.2⟩, fun h => ⟨h.toIsPart, h.colon_notMem⟩⟩

structure Spaced (P : Text → Prop) where
  before : Text
  text : Text
  after : Text
  blank_before : Blank before
  blank_after : Blank after
  prop : P text

abbrev White : Type :=
  {w : Text // Blank w}

def Spaced.print {P : Text → Prop} (s : Spaced P) : Text :=
  s.before ++ s.text ++ s.after

namespace Sheet

structure Pair where
  property : Spaced IsProperty
  value : Spaced IsPart

def Pair.print (p : Pair) : Text :=
  p.property.print ++ ':' :: p.value.print

def Pair.line (p : Pair) : Text :=
  p.property.text ++ ": " ++ p.value.text ++ ";"

/-- Pairs of which the last may stand without a semicolon. -/
structure Body where
  init : List Pair
  last : Pair
  stop : Option White

def Body.print (b : Body) : Text :=
  b.init.flatMap (fun p => p.print ++ [';']) ++
    (b.last.print ++ (b.stop.map fun w => ';' :: w.val).getD [])

def Body.lines (b : Body) : List Text :=
  (b.init ++ [b.last]).map Pair.line

/-- A list of selectors, of which the first does not look like an at-rule, and a body. -/
structure StyleRule where
  first : Spaced IsSelector
  more : List (Spaced IsSelector)
  body : Body
  head_ne : first.text.head? ≠ some '@'

namespace StyleRule

def selectors (r : StyleRule) : List Text :=
  r.first.text :: r.more.map (·.text)

def printList (first : Spaced IsSelector) (more : List (Spaced IsSelector)) : Text :=
  first.print ++ more.flatMap fun s => ',' :: s.print

def print (r : StyleRule) : Text :=
  printList r.first r.more ++ '{' :: r.body.print ++ ['}']

/-- The rule for a token, if one of the selectors mentions it. -/
def rules (r : StyleRule) (k : Token) (conditions : List Text) : List Rule :=
  let mentioning := r.selectors.filter fun s => k.Mentioned s
  if mentioning.isEmpty then []
  else [⟨conditions, join ", " (mentioning.map k.relative), join "\n" r.body.lines⟩]

end StyleRule

def conditionalKeywords : List Text :=
  ["@media", "@container", "@supports"]

/-- The keyword of a conditional at-rule in any letter case, and its condition. -/
structure Prelude where
  before : White
  keyword : Text
  condition : Spaced IsPart
  conditional : lower keyword ∈ conditionalKeywords
  apart : condition.before ≠ [] ∨ condition.text.head? = some '('

def Prelude.print (p : Prelude) : Text :=
  p.before.val ++ (p.keyword ++ p.condition.print)

def Prelude.normal (p : Prelude) : Text :=
  let keyword := lower p.keyword
  let condition := p.condition.text
  keyword ++ " " ++
    if keyword = "@supports" then condition else Condition.normalize condition

/-- An at-rule that holds no rules, whatever stands between its braces. -/
structure OtherRule where
  prelude : Spaced IsPart
  body : Text
  head_eq : prelude.text.head? = some '@'
  unconditional : lower (AtRule.splitKeyword prelude.text).1 ∉ conditionalKeywords
  plain : Lexeme.Plain body
  balanced : bracesBehind? 0 body = some 0

def OtherRule.print (r : OtherRule) : Text :=
  r.prelude.print ++ '{' :: r.body ++ ['}']

inductive Item where
  | style (r : StyleRule)
  | conditional (p : Prelude) (items : List Item) (stop : White)
  | other (r : OtherRule)

mutual

def Item.print : Item → Text
  | .style r => r.print
  | .conditional p items stop => p.print ++ '{' :: (printAll items ++ stop.val) ++ ['}']
  | .other r => r.print

def printAll : List Item → Text
  | [] => []
  | i :: is => i.print ++ printAll is

end

mutual

def Item.rules (k : Token) (conditions : List Text) : Item → List Rule
  | .style r => r.rules k conditions
  | .conditional p items _ => rulesAll k (conditions ++ [p.normal]) items
  | .other _ => []

def rulesAll (k : Token) (conditions : List Text) : List Item → List Rule
  | [] => []
  | i :: is => i.rules k conditions ++ rulesAll k conditions is

end

end Sheet

structure Sheet where
  items : List Sheet.Item
  stop : White

namespace Sheet

def print (s : Sheet) : Text :=
  printAll s.items ++ s.stop.val

def rules (s : Sheet) (k : Token) : List Rule :=
  rulesAll k [] s.items

end Sheet

end Restyle
