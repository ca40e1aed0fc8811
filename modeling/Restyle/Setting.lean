import Restyle.Json.Reader

/-! # Settings

A builder setting is a scalar text, a list, a map or nothing. Texts that hold
a JSON array or object are settings in disguise and are decoded too, at any
depth, so that no scalar is left that could be read further.
-/

namespace Restyle

inductive Setting where
  | scalar (t : Text)
  | list (items : List Setting)
  | map (entries : List (Text × Setting))
  | none
  deriving Inhabited

abbrev Settings := Table Setting

namespace Setting

mutual

/-- Decode a JSON value, given how its texts are decoded. -/
def decodeWith (text : Text → Setting) : Json → Setting
  | .null => none
  | .bool b => if b then scalar "1" else none
  | .number n => scalar n.toText
  | .string t => text t
  | .array items => list (decodeItems text items)
  | .object entries => map (Table.ofList (decodeEntries text entries))

def decodeItems (text : Text → Setting) : List Json → List Setting
  | [] => []
  | j :: items => decodeWith text j :: decodeItems text items

def decodeEntries (text : Text → Setting) : List (Text × Json) → List (Text × Setting)
  | [] => []
  | (k, j) :: entries => (k, decodeWith text j) :: decodeEntries text entries

end

/-- Whether a text may hold a JSON array or object. -/
def opensContainer : Text → Bool
  | c :: _ => c == '[' || c == '{'
  | [] => false

/-- Decode a text through at most `levels` levels of encoding. -/
def ofTextWithin : Nat → Text → Setting
  | 0, t => scalar t
  | levels + 1, t =>
    let trimmed := t.trimStart
    if opensContainer trimmed then
      match Json.ofText? trimmed with
      | some j => decodeWith (ofTextWithin levels) j
      | _ => scalar t
    else scalar t

/-- Decode a text; every level of encoding is shorter than the one around it. -/
def ofText (t : Text) : Setting :=
  ofTextWithin t.length t

def ofJson (j : Json) : Setting :=
  decodeWith ofText j

def scalar? : Setting → Option Text
  | scalar t => some t
  | _ => .none

def list? : Setting → Option (List Setting)
  | list items => some items
  | _ => .none

def map? : Setting → Option (Table Setting)
  | map entries => some entries
  | _ => .none

def get? (s : Setting) (key : Text) : Option Setting :=
  s.map?.bind (Table.get? · key)

/-- Nothing, a blank text, `0`, or an empty collection. -/
def isEmpty : Setting → Bool
  | scalar t => t = [] || t = "0"
  | list items => items.isEmpty
  | map entries => entries.isEmpty
  | none => true

/-- A scalar that is neither blank nor `0`. -/
def text? : Setting → Option Text
  | scalar t => if t = [] || t = "0" then .none else some t
  | _ => .none

/-- A scalar that is not blank, for settings where zero means something. -/
def present? : Setting → Option Text
  | scalar t => if t = [] then .none else some t
  | _ => .none

/-- A plain colour, or the `raw` field of a picker object. -/
def color? : Setting → Option Text
  | map entries => (Table.get? entries "raw").bind text?
  | s => s.text?

def isTruthy : Setting → Bool
  | scalar t => !(t = [] || t = "0" || t = "false")
  | s => !s.isEmpty

end Setting

namespace Settings

/-- The settings of a JSON object, or of a text that holds one. -/
def ofJson (j : Json) : Settings :=
  match Setting.ofJson j with
  | .map entries => entries
  | _ => []

def text? (s : Settings) (key : Text) : Option Text :=
  (Table.get? s key).bind Setting.text?

def present? (s : Settings) (key : Text) : Option Text :=
  (Table.get? s key).bind Setting.present?

def nonEmpty? (s : Settings) (key : Text) : Option Setting :=
  (Table.get? s key).filter (!·.isEmpty)

end Settings

end Restyle
