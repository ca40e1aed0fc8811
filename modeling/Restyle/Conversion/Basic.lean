import Restyle.Breakpoint.Resolver
import Restyle.Conversion.Suffix
import Restyle.Group.Effect
import Restyle.Group.Layout
import Restyle.Group.Sides

/-! # Converting settings

Settings become declarations, group by group. A key that goes on with a
breakpoint puts its value into the media block of that breakpoint; a key that
goes on with anything else puts it into a nested rule.
-/

namespace Restyle.Conversion

open Text

def content (s : Settings) : List Declaration :=
  let value := Declaration.contentValue (((Table.get? s "_content").bind Setting.scalar?).getD [])
  if value.isEmpty then [] else [⟨"content", value⟩]

/-- The declarations of a setting under the first of some keys that is not empty. -/
def ofFirst (s : Settings) (keys : List Text) (convert : Setting → List Declaration) :
    List Declaration :=
  ((keys.findSome? (s.nonEmpty? ·)).map convert).getD []

/-- The declarations of the settings themselves. -/
def declarations (s : Settings) : List Declaration :=
  content s ++ Group.layout s ++ Group.flexbox s ++ Group.grid s ++ Group.sizing s ++
    ofFirst s ["_background", "background"] Group.background ++
    ofFirst s ["_gradient"] (fun g => (Group.gradient? g).toList) ++
    ofFirst s ["_border", "border"] Group.border ++
    ofFirst s ["_typography", "typography"] Group.typography ++
    ofFirst s ["spacing"] Group.spacing ++
    Group.marginPadding s ++ Group.position s ++ Group.effects s

def plainCss (s : Settings) : Text :=
  join " " ((declarations s).map Declaration.text)

/-- Settings under the keys of their groups; of a key that comes again the last value counts. -/
def bucket (entries : List (Text × Text × Setting)) : Table Settings :=
  entries.foldl (fun t (name, key, value) => t.update name [] (·.set key value)) []

/-- The key and the suffix, colon included, of a setting for a nested rule. -/
def variantKey? (breakpoints : List Text) (key : Text) : Option (Text × Text) :=
  if key.startsWith Resolver.customCssMark then none
  else match cut? (· == ':') key with
    | none => none
    | some (base, suffix) =>
      let last := ((cutLast? (· == ':') suffix).map (·.2)).getD suffix
      if base.isEmpty || breakpoints.contains (Breakpoint.cleanKey last) then none
      else some (base, ':' :: suffix)

/-- The settings of every nested rule. -/
def variants (r : Resolver) (s : Settings) : Table Settings :=
  let breakpoints := ((r.keysIn s).map Breakpoint.cleanKey).filter (!·.isEmpty)
  bucket (s.filterMap fun (key, value) =>
    (variantKey? breakpoints key).map fun (base, suffix) => (suffix, base, value))

/-- The nested rules for states, pseudo-elements and other suffixes. -/
def variantCss (r : Resolver) (s : Settings) (className : Option Text) : Text :=
  join "\n\n" ((variants r s).filterMap fun (suffix, values) =>
    let css := trim (plainCss values)
    let selector := Suffix.selector suffix className
    if css.isEmpty || selector.isEmpty then none
    else some (selector ++ " \x7b\n  " ++ css ++ "\n\x7d"))

/-- The declarations of the settings and the nested rules behind them. -/
def css (r : Resolver) (s : Settings) (className : Option Text) : Text :=
  let nested := variantCss r s className
  join " " ((declarations s).map Declaration.text ++ if nested.isEmpty then [] else [nested])

/-- One declaration on a line, each line set in. -/
def indentDeclarations (css : Text) : Text :=
  join "\n" ((css.replace "; " ";\n").lines.map fun line => "  " ++ trimEnd line)

/-- The settings for every breakpoint that has a media condition. -/
def buckets (r : Resolver) (s : Settings) : Table Settings :=
  bucket (s.filterMap fun (key, value) =>
    match cutLast? (· == ':') key with
    | none => none
    | some (base, suffix) =>
      let breakpoint := Breakpoint.cleanKey suffix
      if breakpoint.isEmpty || base.isEmpty || !(r.queries true).has breakpoint then none
      else some (breakpoint, base, value))

/-- The media blocks, in the order of the breakpoints. -/
def responsiveCss (r : Resolver) (s : Settings) (className : Option Text) : Text :=
  let buckets := buckets r s
  (r.queries true).flatMap fun (breakpoint, query) =>
    let body := trim (((buckets.get? breakpoint).map (css r · className)).getD [])
    if body.isEmpty then []
    else "\n@media " ++ query ++ " \x7b\n" ++ indentDeclarations body ++ "\n\x7d"

end Restyle.Conversion
