import Restyle.Selector.Nesting
import Restyle.Stylesheet.AtRule
import Restyle.Stylesheet.Node
import Restyle.Table

/-! # Rules for a token

A rule of a stylesheet belongs to a token if one of its selectors mentions the
token. It keeps the conditions around it, the nested form of the selectors
that mention the token, and its body with one declaration on a line. Rules
inside at-rules without a condition, as `@keyframes`, belong to nothing.
-/

namespace Restyle

open Text

/-- Set every line that is not empty in by two spaces. -/
def indent (t : Text) : Text :=
  join "\n" (t.lines.map fun line => if line.isEmpty then line else "  " ++ line)

/-- A head and an indented body in braces. -/
def braced (head body : Text) : Text :=
  head ++ " \x7b\n" ++ indent body ++ "\n\x7d"

namespace Node

/-- `property: value;`, unless one of the two is missing. -/
def formatDeclaration? (raw : Text) : Option Text :=
  match cut? (· == ':') raw with
  | none => none
  | some (property, value) =>
    let property := trim property
    let value := trim value
    if property.isEmpty || value.isEmpty then none else some (property ++ ": " ++ value ++ ";")

mutual

/-- The lines of a node in the body of a rule. -/
def format : Node → List Text
  | declaration t => (formatDeclaration? t).toList
  | block selector body =>
    let inner := join "\n" (formatAll body)
    let head := (AtRule.condition? selector).getD selector
    if head.isEmpty || inner.isEmpty then [] else [braced head inner]

def formatAll : List Node → List Text
  | [] => []
  | n :: ns => n.format ++ formatAll ns

end

/-- The body of a rule, one declaration on a line. -/
def formatBody (body : List Node) : Text :=
  join "\n" (formatAll body)

end Node

/-- A rule for a token: the conditions around it, outermost first, its nested selector, and its
formatted body. -/
structure Rule where
  conditions : List Text
  selector : Text
  declarations : Text
  deriving DecidableEq, Repr

namespace Rule

/-- The rule of a selector list and a body, if it belongs to the token. -/
def ofBlock (token : Text) (conditions : List Text) (selector : Text) (body : List Node) :
    List Rule :=
  let selectors := (Selector.splitList selector).filterMap (Selector.relativeTo? · token)
  let declarations := Node.formatBody body
  if selectors.isEmpty || declarations.isEmpty then []
  else [⟨conditions, join ", " selectors, declarations⟩]

mutual

def ofNode (token : Text) (conditions : List Text) : Node → List Rule
  | .declaration _ => []
  | .block selector body =>
    if selector.startsWith "@" then
      match AtRule.condition? selector with
      | some c => ofNodes token (conditions ++ [c]) body
      | none => []
    else ofBlock token conditions selector body

def ofNodes (token : Text) (conditions : List Text) : List Node → List Rule
  | [] => []
  | n :: ns => ofNode token conditions n ++ ofNodes token conditions ns

end

/-- The rules of a stylesheet for a token, in order. -/
def extract (css token : Text) : List Rule :=
  ofNodes token [] (Node.ofText css)

/-- The bodies under each key, without repetition. -/
def groupBodies (rules : List (Text × Text)) : Table (List Text) :=
  rules.foldl (fun t (k, body) =>
    t.update k [] fun bodies => if bodies.contains body then bodies else bodies ++ [body]) []

/-- The rules without their outermost condition, under that condition. -/
def groupConditions (rules : List Rule) : Table (List Rule) :=
  Table.group (rules.filterMap fun r =>
    match r.conditions with
    | [] => none
    | c :: inner => some (c, { r with conditions := inner }))

/-- Print rules of at most `depth` conditions: declarations of the token itself first, unless
they are to be wrapped too, then nested rules, then conditional blocks. -/
def renderWithin : Nat → List Rule → Bool → Text
  | depth, rules, wrapRoot =>
    let plain := rules.filterMap fun r =>
      if r.conditions.isEmpty then some (r.selector, r.declarations) else none
    let isRoot (p : Text × Text) := p.1 == ['&'] && !wrapRoot
    let root := ((groupBodies (plain.filter isRoot)).get? "&").getD []
    let nested := (groupBodies (plain.filter (!isRoot ·))).map fun (selector, bodies) =>
      braced selector (join "\n" bodies)
    let conditional := match depth with
      | 0 => []
      | depth + 1 => (groupConditions rules).map fun (c, inner) =>
        braced c (renderWithin depth inner true)
    join "\n" ((if root.isEmpty then [] else [join "\n" root]) ++ nested ++ conditional)

def depth (rules : List Rule) : Nat :=
  rules.foldl (fun d r => max d r.conditions.length) 0

def render (rules : List Rule) (wrapRoot : Bool) : Text :=
  renderWithin (depth rules) rules wrapRoot

end Rule

end Restyle
