import Restyle.Conversion.Basic
import Restyle.Conversion.ImageFit
import Restyle.Declaration.Logical
import Restyle.Element.Styles
import Restyle.Reference.Scanner
import Restyle.Utility.Basic

/-! # CSS of one class

A class goes by its name, or by its id if it has none. Its settings give its
own CSS. Its custom CSS joins a stylesheet that all classes share, except what
is meant for a breakpoint: of that the body of the first rule for the class is
kept, inside the media query.
-/

namespace Restyle.GlobalClass

open Text

/-- The name of the class in the target. -/
def targetName (c : GlobalClass) : Text :=
  let name := if c.name.trim.isEmpty then c.id.trim else c.name.trim
  (name.dropStart? Scanner.importMark).getD name

/-- The key under which custom CSS for breakpoints is kept. -/
def key (c : GlobalClass) : Text :=
  if c.id.trim.isEmpty then c.name.trim else c.id.trim

def selector (c : GlobalClass) : Text :=
  '.' :: c.targetName

/-- The CSS of the settings, breakpoints included. -/
def settingsCss (r : Resolver) (c : GlobalClass) : Text :=
  let responsive := Conversion.responsiveCss r c.settings (some c.targetName)
  Conversion.css r c.settings (some c.targetName) ++
    if responsive.isEmpty then [] else ' ' :: responsive

def css (r : Resolver) (c : GlobalClass) : Text :=
  trim (ImageFit.move c.targetName (Declaration.replaceVariables (c.settingsCss r)))

/-- The custom CSS of the class, on lines of its own. -/
def customCss (c : GlobalClass) : Text :=
  ((c.settings.text? CustomCss.key).map fun snippet =>
    CustomCss.apart (CustomCss.forRoot snippet c.selector)).getD []

/-- The first rule for the class in a snippet, wherever its selector starts. -/
def ownRule? (c : GlobalClass) (snippet : Text) : Option Text :=
  find? (fun _ t => Utility.bodyOf? c.targetName t) snippet

/-- The custom CSS of one setting for a breakpoint, inside the media query. -/
def breakpointBlock? (r : Resolver) (c : GlobalClass) (entry : Text × Setting) : Option Text := do
  let breakpoint ← entry.1.dropStart? Resolver.customCssMark
  let snippet ← entry.2.text?
  let media ← r.query? breakpoint
  let body ← c.ownRule? (CustomCss.forRoot snippet c.selector)
  return media ++ " \x7b\n  " ++ trim body ++ "\n\x7d"

def breakpointBlocks (r : Resolver) (c : GlobalClass) : List Text :=
  c.settings.filterMap (breakpointBlock? r c)

end Restyle.GlobalClass
