import Restyle.Json.Printer
import Restyle.Json.Reader
import Restyle.Style.Json

/-! # Store documents

A document holds everything that a store keeps: styles, the style map, the
declarations of utility classes, and a version that counts the imports.
-/

namespace Restyle

structure Document where
  version : UInt64 := 0
  styles : StyleSet := []
  styleMap : StyleMap := []
  inline : Table Text := []
  deriving DecidableEq, Repr

namespace Document

open Json

def toJson (d : Document) : Json :=
  .object (("version", .number (.integer d.version.toNat)) ::
    styleFields d.styles d.styleMap d.inline)

/-- What matters of a document; other fields may hold anything. -/
def fields : List (Text × Shape) :=
  [("version", .whole), ("styles", .table Style.shape), ("style_map", .table StyleRef.shape),
    ("inline_styles", .table .whole)]

def ofJson? (j : Json) : Option Document := do
  let fields ← j.record? (fields.map (·.1))
  let version ← fieldOr? fields "version" 0 nat?
  let styles ← fieldOr? fields "styles" [] (table? Style.ofJson?)
  let styleMap ← fieldOr? fields "style_map" [] (table? StyleRef.ofJson?)
  let inline ← fieldOr? fields "inline_styles" [] (table? text?)
  return ⟨UInt64.ofNat version, styles, styleMap, inline⟩

def toText (d : Document) : Text :=
  d.toJson.wide 0

/-- The document in a text; a blank text is an empty document. -/
def ofText? (t : Text) : Option Document :=
  if t.trim.isEmpty then some {} else (Json.partsOfText? (.record fields) t).bind ofJson?

end Document

end Restyle
