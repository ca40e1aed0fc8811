import Restyle.Conversion.Basic
import Restyle.Declaration.Color
import Restyle.Declaration.Logical
import Restyle.Element.Id
import Restyle.Content.PostType
import Restyle.Style.Basic

/-! # Styles of elements

The settings of an element become a style for its id; elements with the same
id share one style. Custom CSS of elements is gathered as text, with the
element's selector in place of `%root%`.
-/

namespace Restyle

open Text

namespace CustomCss

def key : Text := "_cssCustom"

def rootMark : Text := "%root%"

/-- A snippet for a selector. -/
def forRoot (snippet root : Text) : Text :=
  Declaration.replaceHsl (snippet.replace rootMark root)

/-- A snippet on lines of its own. -/
def apart (snippet : Text) : Text :=
  '\n' :: snippet ++ "\n"

end CustomCss

namespace Element

/-- The CSS of an element's settings, breakpoints included. -/
def settingsCss (r : Resolver) (s : Settings) : Text :=
  let base := trim (Conversion.css r s none)
  let responsive := trim (Conversion.responsiveCss r s none)
  if responsive.isEmpty then base else trim (base ++ " " ++ responsive)

/-- Add CSS for an id to the styles. -/
def addStyle (styles : StyleSet) (id css : Text) : StyleSet :=
  let css := Declaration.toLogical css
  let key := Style.elementId id
  match styles.get? key with
  | some s => styles.set key { s with css := trim (s.css.trim ++ "\n  " ++ css) }
  | none => styles.set key (Style.ofSelector key ('#' :: id) css)

def addSettings (r : Resolver) (styles : StyleSet) (e : Element) : StyleSet :=
  let id := targetId e.id
  let css := settingsCss r e.settings
  if id.isEmpty || css.isEmpty then styles else addStyle styles id css

/-- A snippet for a breakpoint, inside its media query if it is known. -/
def breakpointSnippet (r : Resolver) (root : Text) : Text × Setting → Option Text
  | (key, .scalar snippet) =>
    (key.dropStart? Resolver.customCssMark).bind fun breakpoint =>
      if snippet.trim.isEmpty then none
      else
        let snippet := CustomCss.forRoot snippet root
        match r.query? breakpoint with
        | some media => some (CustomCss.apart (media ++ " \x7b\n" ++ snippet ++ "\n\x7d"))
        | none => some (CustomCss.apart snippet)
  | _ => none

/-- The custom CSS of an element. -/
def customCss (r : Resolver) (e : Element) : Text :=
  let root := rootSelector e.id
  let plain := (e.settings.text? CustomCss.key).map fun snippet =>
    CustomCss.apart (CustomCss.forRoot snippet root)
  plain.getD [] ++ (e.settings.filterMap (breakpointSnippet r root)).flatten

/-- The styles and the custom CSS of elements. -/
structure Collected where
  styles : StyleSet
  customCss : Text

/-- Collect the styles of all elements with settings in items of some post types. -/
def collect (r : Resolver) (items : List Item) (postTypes : List Text) : Collected :=
  let elements := (PostType.select items postTypes).flatMap (·.elements)
  let elements := elements.filter (!·.settings.isEmpty)
  ⟨elements.foldl (addSettings r) [], elements.flatMap (customCss r)⟩

end Element

end Restyle
