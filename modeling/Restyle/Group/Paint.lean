import Restyle.Declaration.Basic
import Restyle.Declaration.Quad
import Restyle.Declaration.Value

/-! # Backgrounds, borders and typography

These settings are maps with fields of their own.
-/

namespace Restyle.Group

open Declaration

/-- A field of a map that is neither blank nor `0`. -/
def textOf? (s : Setting) (key : Text) : Option Text :=
  (s.get? key).bind Setting.text?

def colorOf? (s : Setting) (key : Text) : Option Text :=
  (s.get? key).bind Setting.color?

def backgroundImage (image : Setting) : List Declaration :=
  match textOf? image "url" with
  | none => []
  | some url =>
    ⟨"background-image", "url(" ++ url ++ ")"⟩ ::
      (ofValue "background-size" (textOf? image "size") ++
        ofValue "background-position" (textOf? image "position") ++
        ofValue "background-repeat" (textOf? image "repeat"))

def background (s : Setting) : List Declaration :=
  ofValue "background-color" (colorOf? s "color") ++
    ((s.get? "image").map backgroundImage).getD []

/-- A colour and its stop, if it has one. -/
def gradientColor? (entry : Setting) : Option Text :=
  (colorOf? entry "color").map fun color =>
    match textOf? entry "stop" with
    | some stop => color ++ " " ++ gradientStop stop
    | none => color

def gradient? (s : Setting) : Option Declaration :=
  match (s.get? "colors").bind Setting.list? with
  | none => none
  | some entries =>
    let colors := entries.filterMap gradientColor?
    if colors.isEmpty then none
    else
      let radial := ((s.get? "type").bind Setting.scalar?).any fun (t : Text) => t = "radial"
      let function : Text := if radial then "radial-gradient(" else "linear-gradient("
      some ⟨"background-image", function ++ Text.join ", " colors ++ ")"⟩

def sideOrZero (s : Setting) (side : Text) : Text :=
  ((s.get? side).bind Setting.present?).getD "0"

/-- A value for four sides, given by a text for all or by a map with a field for each. -/
def fourSides (all one : Text → Text) : Setting → Option Text
  | .scalar t => if t = [] ∨ t = "0" then none else some (all t)
  | .map entries =>
    if entries.isEmpty then none
    else
      let side name := one (sideOrZero (.map entries) name)
      some (quadValue (side "top") (side "right") (side "bottom") (side "left"))
  | _ => none

def border (s : Setting) : List Declaration :=
  ofValue "border-width" ((s.get? "width").bind (fourSides borderWidths borderWidth)) ++
    ofValue "border-style" (textOf? s "style") ++
    ofValue "border-color" (colorOf? s "color") ++
    ofValue "border-radius" ((s.get? "radius").bind (fourSides id id))

/-- Properties of text and the other spelling of their fields. -/
def textProperties : Table Text :=
  [("font-size", "fontSize"), ("font-weight", "fontWeight"), ("font-family", "fontFamily"),
    ("font-style", "fontStyle"), ("line-height", "lineHeight"),
    ("letter-spacing", "letterSpacing"), ("word-spacing", "wordSpacing"),
    ("text-align", "textAlign"), ("text-transform", "textTransform"),
    ("text-decoration", "textDecoration"), ("text-indent", "textIndent")]

def flowProperties : Table Text :=
  [("vertical-align", "verticalAlign"), ("white-space", "whiteSpace")]

def ofFields (s : Setting) (fields : Table Text) : List Declaration :=
  fields.flatMap fun (property, other) => ofValue property (textOf? s property <|> textOf? s other)

def typography (s : Setting) : List Declaration :=
  ofFields s textProperties ++ ofValue "color" (colorOf? s "color") ++ ofFields s flowProperties

/-- The flat spacing object of older settings. -/
def spacing (s : Setting) : List Declaration :=
  ofValue "margin" (textOf? s "margin") ++ ofValue "padding" (textOf? s "padding")

end Restyle.Group
