import Restyle.Json.Basic

/-! # Outlines of JSON

The outline of a JSON text is its structure, with what every number and quoted
text in it denotes, if it denotes anything. Where only some parts of a value
matter, as a shape says, the other parts may denote nothing and be as deep as
they like; the parts that matter have to denote something, and at most 127
containers may lie inside each other.
-/

namespace Restyle.Json

inductive Outline where
  | null
  | bool (b : Bool)
  | number (n : Option Number)
  | string (t : Option Text)
  | array (items : List Outline)
  | object (entries : List (Option Text × Outline))

/-- Which parts of a value matter: all of it; the fields of a record, by name or, in an array, in
order; or all values of a table. -/
inductive Shape where
  | whole
  | record (fields : List (Text × Shape))
  | table (values : Shape)

namespace Outline

/-- How many containers may lie inside each other. -/
def depthLimit : Nat := 127

mutual

/-- The value of an outline in which at most `room` containers lie inside each other. -/
def value? (room : Nat) : Outline → Option Json
  | null => some .null
  | bool b => some (.bool b)
  | number n => n.map .number
  | string t => t.map .string
  | array items => if room = 0 then none else (items? (room - 1) items).map .array
  | object entries => if room = 0 then none else (entries? (room - 1) entries).map .object

def items? (room : Nat) : List Outline → Option (List Json)
  | [] => some []
  | o :: items => do return (← value? room o) :: (← items? room items)

def entries? (room : Nat) : List (Option Text × Outline) → Option (List (Text × Json))
  | [] => some []
  | (key, o) :: entries => do return (← key, ← value? room o) :: (← entries? room entries)

end

mutual

/-- The parts that matter of an outline. -/
def read? : Shape → Outline → Option Json
  | .record fields, object entries => (fields? fields entries).map .object
  | .record fields, array items => (columns? (fields.map (·.2)) items).map .array
  | .table values, object entries => (table? values entries).map .object
  | _, o => o.value? depthLimit

/-- The known fields of a record. -/
def fields? (fields : List (Text × Shape)) :
    List (Option Text × Outline) → Option (List (Text × Json))
  | [] => some []
  | (none, _) :: _ => none
  | (some key, o) :: entries =>
    match fields.lookup key with
    | some shape => do return (key, ← read? shape o) :: (← fields? fields entries)
    | none => fields? fields entries

/-- The fields of a record in order; there may be no others. -/
def columns? : List Shape → List Outline → Option (List Json)
  | _, [] => some []
  | [], _ :: _ => none
  | shape :: shapes, o :: items => do return (← read? shape o) :: (← columns? shapes items)

def table? (values : Shape) : List (Option Text × Outline) → Option (List (Text × Json))
  | [] => some []
  | (key, o) :: entries => do return (← key, ← read? values o) :: (← table? values entries)

end

end Outline

end Restyle.Json
