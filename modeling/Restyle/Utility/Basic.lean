import Restyle.Declaration.Color
import Restyle.Reference.Exclusion

/-! # Utility classes

A class of the utility framework is not converted. Its declarations are those
of the first rule of its own in the framework's stylesheet, and they are kept
under every name by which the class is looked up.
-/

namespace Restyle

open Text

/-- The stylesheet as it was found, as it was loaded in this run, the rules looked up so far and
the declarations registered so far. -/
structure Utility where
  source : Text := []
  sheet : Option Text := none
  lookups : Table Text := []
  inline : Table Text := []

namespace Utility

def ofStylesheet (source : Text) : Utility :=
  { source }

def reset (u : Utility) : Utility :=
  { source := u.source }

def category : Text := "acss"

def isUtility (c : GlobalClass) : Bool :=
  lower (trim c.category) = category || c.name.trim.startsWith Scanner.importMark

/-- The name of a utility class without the marks before it. -/
def bareName (name : Text) : Text :=
  let bare := Exclusion.bareName name
  (bare.dropStart? "fr-").getD bare

/-- The body of a rule for a class at the head of a text. -/
def bodyOf? (name t : Text) : Option (Text × Text) := do
  let rest ← dropStart? t ('.' :: name)
  let rest ← dropStart? (trimStart rest) "\x7b"
  let body := rest.takeWhile (· ≠ '}')
  let rest ← dropStart? (rest.dropWhile (· ≠ '}')) "\x7d"
  return (body, rest)

/-- A rule for a class, at the start of the text or behind a blank, a comma or a brace. -/
def rule (name : Text) : Recogniser Text := fun before t =>
  let atStart := if before.isNone then bodyOf? name t else none
  atStart <|> match t with
    | c :: t => if isBlank c || c == ',' || c == '}' then bodyOf? name t else none
    | [] => none

def loaded (u : Utility) : Text :=
  u.sheet.getD u.source

/-- The declarations of a class in a stylesheet. -/
def declarationsIn (sheet name : Text) : Text :=
  match find? (rule name) sheet with
  | some body => Declaration.replaceBareHsl (trim body)
  | none => []

/-- The declarations of a class, looked up once. -/
def declarations (u : Utility) (name : Text) : Text :=
  (u.lookups.get? name).getD (declarationsIn u.loaded name)

def remember (u : Utility) (name : Text) : Utility :=
  if u.lookups.has name then u
  else
    { u with sheet := some u.loaded, lookups := u.lookups.set name (declarationsIn u.loaded name) }

/-- Register the declarations of a class under its id, its bare name and its name. -/
def register (u : Utility) (c : GlobalClass) : Utility :=
  let name := c.name.trim
  let bare := bareName name
  if name.isEmpty || bare.isEmpty then u
  else
    let declarations := u.declarations bare
    let u := u.remember bare
    if declarations.isEmpty then u
    else
      let keys := [c.id.trim].filter (!·.isEmpty) ++ [bare, name]
      { u with inline := Table.setAll (keys.map (·, declarations)) u.inline }

inductive Step where
  | reset
  | isUtility (c : GlobalClass)
  | register (c : GlobalClass)
  | declarations (name : Text)
  | inline

inductive Answer where
  | done
  | truth (b : Bool)
  | text (t : Text)
  | inline (styles : Table Text)

def step (u : Utility) : Step → Answer × Utility
  | .reset => (.done, u.reset)
  | .isUtility c => (.truth (isUtility c), u)
  | .register c =>
    let u := u.register c
    (.inline u.inline, u)
  | .declarations name => (.text (u.declarations name), u.remember name)
  | .inline => (.inline u.inline, u)

end Utility

end Restyle
