import Restyle.Declaration.Gap

/-! # Four sides in one

Four longhands of one family that are all declared in a rule are collapsed
into their shorthand, whose value is as short as equal sides allow.
-/

namespace Restyle.Declaration

open Text

/-- A family of four properties, from the top clockwise, and their shorthand. -/
structure QuadFamily where
  sides : List Text
  shorthand : Text

def quadFamilies : List QuadFamily :=
  [⟨["inset-block-start", "inset-inline-end", "inset-block-end", "inset-inline-start"], "inset"⟩,
    ⟨["padding-block-start", "padding-inline-end", "padding-block-end", "padding-inline-start"],
      "padding"⟩,
    ⟨["margin-block-start", "margin-inline-end", "margin-block-end", "margin-inline-start"],
      "margin"⟩,
    ⟨["border-start-start-radius", "border-start-end-radius", "border-end-end-radius",
      "border-end-start-radius"], "border-radius"⟩,
    ⟨["border-top-left-radius", "border-top-right-radius", "border-bottom-right-radius",
      "border-bottom-left-radius"], "border-radius"⟩]

/-- The shortest value for four sides. -/
def quadValue (top right bottom left : Text) : Text :=
  if top = right ∧ right = bottom ∧ bottom = left then top
  else if top = bottom ∧ right = left then top ++ " " ++ right
  else if right = left then join " " [top, right, bottom]
  else join " " [top, right, bottom, left]

/-- Read behind leading white space, as much of it as leaves something to read. -/
def behindBlanks? {α : Type} (read : Text → Option α) : Text → Option α
  | [] => read []
  | c :: t => if isBlank c then behindBlanks? read t <|> read (c :: t) else read (c :: t)

/-- A declaration of a property at the head of a text, with its trimmed value. -/
def declarationOf? (name : Text) : Text → Option (Text × Text) :=
  behindBlanks? fun t => do
    let (_, rest) ← property? [name] t
    let (value, rest) ← value? rest
    return (trim value, rest)

/-- A declaration of a property at the start of the text or behind a semicolon. -/
def sideDeclaration (name : Text) : Recogniser Text := fun before t =>
  let atStart := if before.isNone then declarationOf? name t else none
  atStart <|> (dropStart? t ";").bind (declarationOf? name)

/-- Take out the declarations of a property, a semicolon staying for each. -/
def withoutSide (declarations name : Text) : Text :=
  substitute (fun before t => (sideDeclaration name before t).map fun (_, rest) => (";", rest))
    declarations

/-- What is left of the declarations besides a family, with white space and semicolons squeezed. -/
def remainder (declarations : Text) (sides : List Text) : Text :=
  let rest := trimEnd (squeezeBlanks (sides.foldl withoutSide declarations))
  let rest := trimStart ((trim (squeezeSemicolons rest)).dropWhile (· == ';'))
  if rest.isEmpty || rest.getLast? = some ';' then rest else rest ++ ";"

/-- Collapse one family, unless one of its sides is missing. -/
def collapseQuad (family : QuadFamily) (declarations : Text) : Text :=
  match family.sides.mapM fun name => find? (sideDeclaration name) declarations with
  | some [top, right, bottom, left] =>
    trim (remainder declarations family.sides ++ " " ++ family.shorthand ++ ": " ++
      quadValue top right bottom left ++ ";")
  | _ => declarations

/-- Collapse every known family. -/
def collapseQuads (declarations : Text) : Text :=
  quadFamilies.foldl (fun t family => collapseQuad family t) declarations

/-- The body of an innermost rule, in its braces. -/
def ruleBody (f : Text → Text) : Recogniser Text := fun _ t => do
  let t ← dropStart? t "\x7b"
  let isBrace c := c == '{' || c == '}'
  let rest ← dropStart? (t.dropWhile (!isBrace ·)) "\x7d"
  return ("\x7b" ++ f (t.takeWhile (!isBrace ·)) ++ "\x7d", rest)

/-- Collapse families in a list of declarations, or inside every innermost rule. -/
def collapseShorthands (css : Text) : Text :=
  if css.contains "\x7b" || css.contains "\x7d" then substitute (ruleBody collapseQuads) css
  else collapseQuads css

end Restyle.Declaration
