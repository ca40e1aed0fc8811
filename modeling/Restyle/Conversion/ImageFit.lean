import Restyle.Declaration.Basic
import Restyle.Declaration.Gap

/-! # Image fit

The fit and the aspect ratio of an image class belong to the image inside it,
so they move into a nested `img` block. An image that covers its box also
fills it.
-/

namespace Restyle.ImageFit

open Text Declaration

/-- A nested block for images. -/
def imageBlock : Recogniser Unit := fun before t => do
  if !wordMayStart before then none
  let rest ← dropWord? "img" t
  let rest ← dropStart? (trimStart rest) "\x7b"
  return ((), rest)

/-- A declaration of the fit or the aspect ratio, with its value trimmed. -/
def fitDeclaration : Recogniser Declaration := fun before t => do
  if !wordMayStart before then none
  let (name, rest) ← property? ["object-fit", "aspect-ratio"] t
  let (value, rest) ← value? rest
  return (⟨lower (t.take name.length), trim value⟩, rest)

/-- The text before the first media block, and the rest. -/
def splitMedia : Text → Text × Text
  | [] => ([], [])
  | c :: t =>
    if startsWith (c :: t) "@media" then ([], c :: t)
    else
      let (base, media) := splitMedia t
      (c :: base, media)

/-- The declarations that move, without blank ones and repetitions. -/
def moved (base : Text) : List Declaration :=
  (findAll fitDeclaration base).foldl (fun ds d =>
    if d.value.isEmpty || ds.contains d then ds else ds ++ [d]) []

def covers (d : Declaration) : Bool :=
  d.property = "object-fit" && lower d.value = "cover"

/-- The sizes that a covering image gains, unless they are mentioned already. -/
def coverSizes (ds : List Declaration) : List Declaration :=
  let existing := join " " (ds.map Declaration.text)
  if !ds.any covers then []
  else
    (if existing.contains "inline-size" then [] else [⟨"inline-size", "100%"⟩]) ++
      (if existing.contains "block-size" then [] else [⟨"block-size", "100%"⟩])

/-- What stays of the root block, closed by a semicolon if need be. -/
def remaining (base : Text) : Text :=
  let without := substitute (fun before t => (fitDeclaration before t).map fun d => ([], d.2)) base
  let rest := trim (squeezeSemicolons without)
  match rest.getLast? with
  | none => []
  | some c => if c = ';' ∨ c = '}' then rest else rest ++ ";"

def nestedImage (ds : List Declaration) : Text :=
  "img \x7b\n  " ++ join "\n  " (ds.map Declaration.text) ++ "\n\x7d"

/-- Move fit and aspect ratio of an image class into a nested `img` block. -/
def move (className css : Text) : Text :=
  let (base, media) := splitMedia css
  let ds := moved base
  if !(lower (trim className)).contains "image" || (trim base).isEmpty ||
      (find? imageBlock base).isSome || ds.isEmpty then css
  else
    let kept := remaining base
    let nested := nestedImage (ds ++ coverSizes ds)
    let base := if kept.isEmpty then nested else kept ++ "\n\n" ++ nested
    trim (if media.isEmpty then base else base ++ "\n" ++ trimStart media)

end Restyle.ImageFit
