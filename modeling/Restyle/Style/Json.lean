import Restyle.Json.Outline
import Restyle.Json.Record
import Restyle.Style.Basic

/-! # Styles in JSON

Tables of styles are JSON objects in the order of the tables. Of a style only
the selector has to be there when it is read.
-/

namespace Restyle

open Json

namespace Style

def toJson (s : Style) : Json :=
  .object [("id", .string s.id), ("type", .string s.kind), ("selector", .string s.selector),
    ("collection", .string s.collection), ("css", .string s.css), ("readonly", .bool s.readonly)]

def fieldNames : List Text :=
  ["id", "type", "selector", "collection", "css", "readonly"]

def shape : Shape :=
  .record (fieldNames.map (·, .whole))

def ofJson? (j : Json) : Option Style := do
  let fields ← j.record? fieldNames
  let id ← fieldOr? fields "id" [] text?
  let kind ← fieldOr? fields "type" classKind text?
  let selector ← field? fields "selector" text?
  let collection ← fieldOr? fields "collection" defaultCollection text?
  let css ← fieldOr? fields "css" [] text?
  let readonly ← fieldOr? fields "readonly" false bool?
  return ⟨id, kind, selector, collection, css, readonly⟩

end Style

namespace StyleRef

def toJson (r : StyleRef) : Json :=
  .object [("id", .string r.id), ("selector", .string r.selector)]

def fieldNames : List Text :=
  ["id", "selector"]

def shape : Shape :=
  .record (fieldNames.map (·, .whole))

def ofJson? (j : Json) : Option StyleRef := do
  let fields ← j.record? fieldNames
  let id ← field? fields "id" text?
  let selector ← field? fields "selector" text?
  return ⟨id, selector⟩

end StyleRef

/-- The object of a table. -/
def Table.toJson {β : Type} (write : β → Json) (t : Table β) : Json :=
  .object (t.map fun (key, value) => (key, write value))

/-- Styles, style map and utility declarations under the names they have in files. -/
def styleFields (styles : StyleSet) (styleMap : StyleMap) (inline : Table Text) :
    List (Text × Json) :=
  [("styles", Table.toJson Style.toJson styles),
    ("style_map", Table.toJson StyleRef.toJson styleMap),
    ("inline_styles", Table.toJson Json.string inline)]

end Restyle
