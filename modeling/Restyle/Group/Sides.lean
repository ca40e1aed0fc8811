import Restyle.Declaration.Basic
import Restyle.Declaration.Quad

/-! # Margins, paddings and insets

The four sides come from a compound setting and from a setting for each side,
which wins. Sides of one axis that are equal share a declaration; a compound
with all four sides that none overrides is one shorthand.
-/

namespace Restyle.Group

open Declaration

structure SideValues where
  /-- The shorthand text of a compound setting. -/
  direct : Option Text := none
  top : Option Text := none
  right : Option Text := none
  bottom : Option Text := none
  left : Option Text := none
  /-- Every side came from the compound setting. -/
  compound : Bool := false
  deriving DecidableEq, Repr

/-- The keys of the sides, from the top clockwise. -/
structure SideKeys where
  top : Text
  right : Text
  bottom : Text
  left : Text

namespace SideValues

/-- The values of a compound setting. -/
def ofCompound : Setting → SideValues
  | .map entries =>
    let side key := (Table.get? entries key).bind Setting.present?
    let v : SideValues :=
      { top := side "top", right := side "right", bottom := side "bottom", left := side "left" }
    { v with compound := v.top.isSome && v.right.isSome && v.bottom.isSome && v.left.isSome }
  | .scalar t => if t = [] then {} else { direct := some t }
  | _ => {}

def read (s : Settings) (compoundKey : Option Text) (keys : SideKeys) : SideValues :=
  let v := ((compoundKey.bind (Table.get? s)).map ofCompound).getD {}
  let top := s.present? keys.top
  let right := s.present? keys.right
  let bottom := s.present? keys.bottom
  let left := s.present? keys.left
  { direct := v.direct
    top := top <|> v.top
    right := right <|> v.right
    bottom := bottom <|> v.bottom
    left := left <|> v.left
    compound := v.compound && (top <|> right <|> bottom <|> left).isNone }

/-- The two sides of an axis, in one declaration if they are equal. -/
def axis (property : Text) (first second : Text × Option Text) : List Declaration :=
  if first.2.isSome ∧ first.2 = second.2 then ofValue property first.2
  else ofValue first.1 first.2 ++ ofValue second.1 second.2

def declarations (property : Text) (v : SideValues) : List Declaration :=
  ofValue property v.direct ++
    match v.compound, v.top, v.right, v.bottom, v.left with
    | true, some top, some right, some bottom, some left =>
      [⟨property, quadValue top right bottom left⟩]
    | _, top, right, bottom, left =>
      axis (property ++ "-block") (property ++ "-block-start", top)
          (property ++ "-block-end", bottom) ++
        axis (property ++ "-inline") (property ++ "-inline-end", right)
          (property ++ "-inline-start", left)

end SideValues

def marginKeys : SideKeys :=
  ⟨"_marginTop", "_marginRight", "_marginBottom", "_marginLeft"⟩

def paddingKeys : SideKeys :=
  ⟨"_paddingTop", "_paddingRight", "_paddingBottom", "_paddingLeft"⟩

def insetKeys : SideKeys :=
  ⟨"_top", "_right", "_bottom", "_left"⟩

def marginPadding (s : Settings) : List Declaration :=
  (SideValues.read s (some "_margin") marginKeys).declarations "margin" ++
    (SideValues.read s (some "_padding") paddingKeys).declarations "padding"

def position (s : Settings) : List Declaration :=
  ofTexts s [("_position", "position")] ++
    (SideValues.read s none insetKeys).declarations "inset"

end Restyle.Group
