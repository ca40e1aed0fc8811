import Restyle.Json.Outline
import Restyle.Json.Token

/-! # Reading JSON

A reader takes one token at a time. It keeps the containers that are open and
what may come next, and comes to the outline of a text.
-/

namespace Restyle.Json

/-- An open container that waits for a value; its items so far are given last first. -/
inductive Frame where
  | array (items : List Outline)
  | object (entries : List (Option Text × Outline)) (key : Option Text)

/-- What may come next: inside the containers of `outer`, and for most states inside one more
whose items are given last first. -/
inductive Reader where
  | value (outer : List Frame)
  | firstItem (outer : List Frame)
  | nextItem (items : List Outline) (outer : List Frame)
  | firstKey (outer : List Frame)
  | nextKey (entries : List (Option Text × Outline)) (outer : List Frame)
  | colon (entries : List (Option Text × Outline)) (key : Option Text) (outer : List Frame)
  | nextEntry (entries : List (Option Text × Outline)) (outer : List Frame)
  | done (o : Outline)

namespace Reader

/-- Put a complete value where one was awaited. -/
def supply (o : Outline) : List Frame → Reader
  | [] => done o
  | .array items :: outer => nextItem (o :: items) outer
  | .object entries key :: outer => nextEntry ((key, o) :: entries) outer

/-- Take the first token of a value. -/
def begin? (outer : List Frame) : Token → Option Reader
  | .null => some (supply .null outer)
  | .bool b => some (supply (.bool b) outer)
  | .number n => some (supply (.number n) outer)
  | .string t => some (supply (.string t) outer)
  | .openArray => some (firstItem outer)
  | .openObject => some (firstKey outer)
  | _ => none

def step? : Reader → Token → Option Reader
  | value outer, token => begin? outer token
  | firstItem outer, .closeArray => some (supply (.array []) outer)
  | firstItem outer, token => begin? (.array [] :: outer) token
  | nextItem items outer, .comma => some (value (.array items :: outer))
  | nextItem items outer, .closeArray => some (supply (.array items.reverse) outer)
  | firstKey outer, .closeObject => some (supply (.object []) outer)
  | firstKey outer, .string k => some (colon [] k outer)
  | nextKey entries outer, .string k => some (colon entries k outer)
  | colon entries k outer, .colon => some (value (.object entries k :: outer))
  | nextEntry entries outer, .comma => some (nextKey entries outer)
  | nextEntry entries outer, .closeObject => some (supply (.object entries.reverse) outer)
  | _, _ => none

def steps? : Reader → List Token → Option Reader
  | r, [] => some r
  | r, token :: tokens =>
    match r.step? token with
    | some r => r.steps? tokens
    | none => none

end Reader

/-- The outline of a whole text. -/
def Outline.ofText? (t : Text) : Option Outline :=
  match Token.scan t with
  | none => none
  | some tokens =>
    match (Reader.value []).steps? tokens with
    | some (.done o) => some o
    | _ => none

/-- The value that a whole text denotes. -/
def ofText? (t : Text) : Option Json :=
  (Outline.ofText? t).bind (·.value? Outline.depthLimit)

/-- The parts that matter of the value that a whole text denotes. -/
def partsOfText? (s : Shape) (t : Text) : Option Json :=
  (Outline.ofText? t).bind (·.read? s)

end Restyle.Json
