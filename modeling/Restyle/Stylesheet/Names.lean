import Restyle.Selector.Rename
import Restyle.Stylesheet.Nested
import Restyle.Style.Basic

/-! # Styles of a stylesheet

The class and id names that selectors use, each with the nested CSS of the
stylesheet for it. Names in values, in attribute brackets and in quoted texts
do not count.
-/

namespace Restyle

open Text

namespace Selector

/-- Whether a name may follow the sigil. -/
def isName (sigil : Char) : Text → Bool
  | [] => false
  | c :: _ => c.isAlpha || c == '_' || (sigil == '.' && c == '-')

/-- The names after a sigil, read inside an open quote, if any, and open brackets. -/
def namesFrom (sigil : Char) : Option Char → Nat → Text → List Text
  | _, _, [] => []
  | some quote, brackets, c :: t =>
    namesFrom sigil (if c = quote then none else some quote) brackets t
  | none, brackets, c :: t =>
    if c = '"' ∨ c = '\'' then namesFrom sigil (some c) brackets t
    else if c = '[' then namesFrom sigil none (brackets + 1) t
    else if c = ']' then namesFrom sigil none (brackets - 1) t
    else if c = sigil ∧ brackets = 0 then
      let name := t.takeWhile isNameChar
      (if isName sigil name then [name] else []) ++ namesFrom sigil none brackets t
    else namesFrom sigil none brackets t

def names (sigil : Char) (selector : Text) : List Text :=
  namesFrom sigil none 0 selector

end Selector

namespace Node

mutual

/-- The names that the selectors of rules use, in order and with repetitions. -/
def names (sigil : Char) : Node → List Text
  | declaration _ => []
  | block selector body =>
    if selector.startsWith "@" then
      if (AtRule.condition? selector).isSome then namesOfAll sigil body else []
    else Selector.names sigil selector

def namesOfAll (sigil : Char) : List Node → List Text
  | [] => []
  | n :: ns => n.names sigil ++ namesOfAll sigil ns

end

/-- The list without later repetitions. -/
def distinct (names : List Text) : List Text :=
  names.foldl (fun seen n => if seen.contains n then seen else seen ++ [n]) []

end Node

/-- The distinct names that the selectors of a stylesheet use, in order of appearance. -/
def selectorNames (css : Text) (sigil : Char) : List Text :=
  Node.distinct (Node.namesOfAll sigil (Node.ofText css))

namespace StyleMap

/-- The first entry for a class, with or without the dot in its selector. -/
def forClass? (m : StyleMap) (name : Text) : Option StyleRef :=
  m.values.find? fun r => (r.selector.dropStart? ".").getD r.selector = name

end StyleMap

/-- A style for every tracked class that the stylesheet has CSS for. -/
def classStyles (css : Text) (tracked : StyleMap) : StyleSet :=
  let css := Selector.renameIds css
  (selectorNames css '.').foldl (fun styles name =>
    match tracked.forClass? name with
    | none => styles
    | some r =>
      let body := nestedCss css ('.' :: name)
      if body.isEmpty then styles
      else styles.set r.id (Style.ofSelector r.id ('.' :: name) body)) []

/-- A style for every element id that the stylesheet has CSS for. -/
def idStyles (css : Text) : StyleSet :=
  let css := Selector.renameIds css
  (selectorNames css '#').foldl (fun styles name =>
    let body := nestedCss css ('#' :: name)
    if body.isEmpty then styles
    else
      let id := Style.elementId name
      styles.set id (Style.ofSelector id ('#' :: name) body)) []

end Restyle
