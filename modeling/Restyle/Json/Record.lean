import Restyle.Json.Basic

/-! # Records in JSON

A record is an object, or an array of its fields in order, of which the last
may be missing. Unknown names are passed over; a known name that comes twice
spoils the record.
-/

namespace Restyle.Json

/-- The fields of a record with the given names. -/
def record? (names : List Text) : Json → Option (Table Json)
  | object entries =>
    let known := entries.filter fun (k, _) => names.contains k
    if (known.map (·.1)).Nodup then some known else none
  | array items => if items.length ≤ names.length then some (names.zip items) else none
  | _ => none

def text? : Json → Option Text
  | string t => some t
  | _ => none

def bool? : Json → Option Bool
  | bool b => some b
  | _ => none

/-- A natural number of 64 bits. -/
def nat? : Json → Option Nat
  | number (.integer n) => if 0 ≤ n then some n.toNat else none
  | _ => none

/-- A field that has to be there. -/
def field? {α : Type} (fields : Table Json) (name : Text) (read : Json → Option α) : Option α :=
  (fields.get? name).bind read

/-- A field that may be missing. -/
def fieldOr? {α : Type} (fields : Table Json) (name : Text) (default : α)
    (read : Json → Option α) : Option α :=
  match fields.get? name with
  | none => some default
  | some j => read j

/-- The entries of an object, each read; of a repeated key the last value counts. -/
def table? {α : Type} (read : Json → Option α) : Json → Option (Table α)
  | object entries =>
    (entries.mapM fun (entry : Text × Json) => (read entry.2).map (entry.1, ·)).map Table.ofList
  | _ => none

end Restyle.Json
