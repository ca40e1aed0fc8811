import Restyle.Content.PostType

/-! # References to classes

Settings refer to classes under two keys: `_cssGlobalClasses` holds ids,
`_cssClasses` holds names apart by white space. Both are looked for in
settings up to eight containers deep.
-/

namespace Restyle.Reference

def globalKey : Text := "_cssGlobalClasses"

def namesKey : Text := "_cssClasses"

/-- The scalars of a setting: itself, or those in a list. -/
def scalars : Setting → List Text
  | .scalar t => [t]
  | .list items => items.filterMap Setting.scalar?
  | _ => []

/-- The references that settings hold themselves. -/
def own (s : Settings) : List Text :=
  ((Table.get? s globalKey).map scalars).getD [] ++
    (((Table.get? s namesKey).map scalars).getD []).flatMap Text.words

mutual

/-- All references in a setting, looked for in at most `levels` levels of containers. -/
def ofSetting : Nat → Setting → List Text
  | levels + 1, .map entries => own entries ++ ofEntries levels entries
  | levels + 1, .list items => ofItems levels items
  | _, _ => []

def ofItems : Nat → List Setting → List Text
  | _, [] => []
  | levels, s :: items => ofSetting levels s ++ ofItems levels items

def ofEntries : Nat → List (Text × Setting) → List Text
  | _, [] => []
  | levels, (key, s) :: entries =>
    (if key = globalKey ∨ key = namesKey then [] else ofSetting levels s) ++
      ofEntries levels entries

end

/-- The outermost container and up to eight steps inwards. -/
def levels : Nat := 9

def ofItem (i : Item) : List Text :=
  i.elements.flatMap (fun e => ofSetting levels (.map e.settings)) ++
    ofSetting levels i.wrapper ++ ofSetting levels i.page

/-- Add an identifier to an index, trimmed, unless it is blank or there already. -/
def insert (index : List Text) (identifier : Text) : List Text :=
  let identifier := identifier.trim
  if identifier.isEmpty || index.contains identifier then index else index ++ [identifier]

/-- The distinct references in some items. -/
def index (items : List Item) : List Text :=
  (items.flatMap ofItem).foldl insert []

end Restyle.Reference
