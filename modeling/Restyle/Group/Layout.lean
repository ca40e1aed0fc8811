import Restyle.Declaration.Basic
import Restyle.Numeric.Decimal

/-! # Layout, flex boxes, grids and sizes -/

namespace Restyle.Group

open Declaration

def layout (s : Settings) : List Declaration :=
  ofTexts s [("_display", "display"), ("_overflow", "overflow"), ("_overflowX", "overflow-x"),
      ("_overflowY", "overflow-y"), ("_visibility", "visibility")] ++
    ofPresent s [("_opacity", "opacity"), ("_zIndex", "z-index")]

/-- The direction of a flex container. -/
def flexDirection? (s : Settings) : Option Text :=
  s.text? "_flexDirection" <|> s.text? "_direction"

/-- Declarations that only a flex container needs. -/
def flexContainer (s : Settings) : List Declaration :=
  ofValue "flex-direction" (flexDirection? s) ++
    ofTexts s [("_flexWrap", "flex-wrap"), ("_justifyContent", "justify-content"),
      ("_alignItems", "align-items"), ("_alignContent", "align-content")] ++
    ofPresent s [("_rowGap", "row-gap"), ("_columnGap", "column-gap"), ("_gap", "gap")]

/-- A container without a display is a flex box, in a column unless it has a direction. -/
def flexDisplay (s : Settings) : List Declaration :=
  if (flexContainer s).isEmpty || (s.text? "_display").isSome then []
  else ⟨"display", "flex"⟩ ::
    if (flexDirection? s).isNone then [⟨"flex-direction", "column"⟩] else []

def flexbox (s : Settings) : List Declaration :=
  flexDisplay s ++ flexContainer s ++
    ofPresent s [("_flexGrow", "flex-grow"), ("_flexShrink", "flex-shrink")] ++
    ofTexts s [("_flexBasis", "flex-basis"), ("_alignSelf", "align-self")] ++
    ofPresent s [("_order", "order")]

/-- A span of one is the line `1`, another number spans, and any other text names an area. -/
def spanValue (span : Text) : Text :=
  match Binary64.ofText? span.trim with
  | none => span
  | some (.finite false m e) => if Binary64.wholePart m e = 1 then "1" else "span " ++ span
  | some _ => "span " ++ span

/-- Where an item stands on one axis; lines win over a span. -/
def gridPlacement (s : Settings) (axis property : Text) : List Declaration :=
  let key := "_gridItem" ++ axis
  let lines := ofTexts s
    [(key ++ "Start", property ++ "-start"), (key ++ "End", property ++ "-end")]
  if lines.isEmpty then ofValue property ((s.text? (key ++ "Span")).map spanValue) else lines

def grid (s : Settings) : List Declaration :=
  ofTexts s [("_gridTemplateColumns", "grid-template-columns"),
      ("_gridTemplateRows", "grid-template-rows")] ++
    ofPresent s [("_gridGap", "gap"), ("_gridColumnGap", "column-gap"),
      ("_gridRowGap", "row-gap")] ++
    ofTexts s [("_justifyContentGrid", "justify-content"), ("_alignItemsGrid", "align-items"),
      ("_justifyItemsGrid", "justify-items"), ("_alignContentGrid", "align-content"),
      ("_gridAutoFlow", "grid-auto-flow")] ++
    gridPlacement s "Column" "grid-column" ++ gridPlacement s "Row" "grid-row"

def containerDisplays : List Text :=
  ["flex", "grid", "inline-flex", "inline-grid"]

/-- The full width of a container is an upper bound. -/
def width (s : Settings) (value : Text) : Declaration :=
  let display := Text.lower ((s.text? "_display").getD [])
  if display ∈ containerDisplays ∧ value = "100%" then
    ⟨"max-inline-size", "100%"⟩
  else ⟨"inline-size", value⟩

/-- Bounds of sizes: a key, an older key, and the property. -/
def sizeBounds : List (Text × Text × Text) :=
  [("_minWidth", "_widthMin", "min-inline-size"), ("_minHeight", "_heightMin", "min-block-size"),
    ("_maxWidth", "_widthMax", "max-inline-size"), ("_maxHeight", "_heightMax", "max-block-size")]

def sizing (s : Settings) : List Declaration :=
  ((s.text? "_width").map (width s)).toList ++ ofTexts s [("_height", "block-size")] ++
    sizeBounds.flatMap (fun (key, older, property) =>
      ofValue property (s.text? key <|> s.text? older)) ++
    ofTexts s [("_aspectRatio", "aspect-ratio")]

end Restyle.Group
