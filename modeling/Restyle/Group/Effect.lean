import Restyle.Declaration.Basic
import Restyle.Group.Paint

/-! # Effects

Transforms, filters and shadows are texts or maps; a map becomes a list of
function calls with units.
-/

namespace Restyle.Group

open Declaration

def transformParts : Table Text :=
  [("translateX", "px"), ("translateY", "px"), ("scaleX", ""), ("scaleY", ""), ("rotateX", "deg"),
    ("rotateY", "deg"), ("rotateZ", "deg"), ("skewX", "deg"), ("skewY", "deg")]

def filterParts : Table Text :=
  [("blur", "px"), ("brightness", "%"), ("contrast", "%"), ("hue-rotate", "deg"), ("invert", "%"),
    ("opacity", "%"), ("saturate", "%"), ("sepia", "%")]

/-- Calls for the parts that a map has, if any. -/
def calls? (s : Setting) (parts : Table Text) (read : Setting → Option Text) : Option Text :=
  let calls := parts.filterMap fun (name, unit) =>
    ((s.get? name).bind read).map fun value => name ++ "(" ++ value ++ unit ++ ")"
  if calls.isEmpty then none else some (Text.join " " calls)

def transform? : Setting → Option Text
  | .scalar t => some t
  | .map entries => calls? (.map entries) transformParts Setting.text?
  | _ => none

def filter? : Setting → Option Text
  | .map entries => calls? (.map entries) filterParts Setting.present?
  | _ => none

/-- A shadow with its lengths in a map. -/
def shadowOfMap? (shadow : Setting) : Option Text :=
  ((shadow.get? "values").filter (!·.isEmpty)).map fun values =>
    let length key := sideOrZero values key ++ "px "
    let inset : Text := if (shadow.get? "inset").any Setting.isTruthy then "inset " else []
    Text.trimEnd (inset ++ length "offsetX" ++ length "offsetY" ++ length "blur" ++
      length "spread" ++ (colorOf? shadow "color").getD [])

def shadow? : Setting → Option Text
  | .scalar t => some t
  | .map entries => shadowOfMap? (.map entries)
  | _ => none

def effects (s : Settings) : List Declaration :=
  ofValue "transform" ((s.nonEmpty? "_transform").bind transform?) ++
    ofTexts s [("_transformOrigin", "transform-origin"), ("_transition", "transition"),
      ("_cssTransition", "transition")] ++
    ofValue "filter" ((s.nonEmpty? "_cssFilters").bind filter?) ++
    ofTexts s [("_filter", "filter"), ("_backdropFilter", "backdrop-filter")] ++
    ofValue "box-shadow" ((s.nonEmpty? "_boxShadow").bind shadow?) ++
    ofTexts s [("_textShadow", "text-shadow"), ("_objectFit", "object-fit"),
      ("_objectPosition", "object-position"), ("_isolation", "isolation"), ("_cursor", "cursor"),
      ("_mixBlendMode", "mix-blend-mode"), ("_pointerEvents", "pointer-events"),
      ("_scrollSnapType", "scroll-snap-type"), ("_scrollSnapAlign", "scroll-snap-align"),
      ("_scrollSnapStop", "scroll-snap-stop")]

end Restyle.Group
