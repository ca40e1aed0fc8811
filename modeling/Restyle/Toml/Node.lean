import Restyle.Json.Basic

/-! # TOML tables

A TOML text names its tables piece by piece. What may be added to a table
depends on how it came to be: by a header of its own, by a longer header, or by
a dotted key. A value that is written out in one piece is closed.
-/

namespace Restyle.Toml

/-- How a table came to be. -/
inductive Origin where
  | header
  | implied
  | dotted
  deriving DecidableEq, Repr

inductive Node where
  | value (j : Json)
  | table (origin : Origin) (entries : List (Text × Node))
  /-- An array of tables; only the last one is still open. -/
  | tables (closed : List (List (Text × Node))) (last : List (Text × Node))

abbrev Entries := List (Text × Node)

mutual

def Node.toJson : Node → Json
  | .value j => j
  | .table _ entries => .object (entriesToJson entries)
  | .tables closed last => .array (tablesToJson closed ++ [.object (entriesToJson last)])

def entriesToJson : List (Text × Node) → List (Text × Json)
  | [] => []
  | (key, n) :: entries => (key, n.toJson) :: entriesToJson entries

def tablesToJson : List (List (Text × Node)) → List Json
  | [] => []
  | entries :: tables => .object (entriesToJson entries) :: tablesToJson tables

end

namespace Entries

/-- Change the table at a path. Tables that are missing come to be by the given origin; dotted
keys do not lead into a table that has a header. -/
def change (origin : Origin) (f : Origin → Entries → Option Entries) :
    List Text → Origin → Entries → Option Entries
  | [], own, entries => f own entries
  | key :: path, _, entries =>
    match entries.lookup key with
    | none => do
      let sub ← change origin f path origin []
      return Table.set key (.table origin sub) entries
    | some (.value _) => none
    | some (.tables closed last) => do
      let sub ← change origin f path .header last
      return Table.set key (.tables closed sub) entries
    | some (.table own sub) =>
      if origin = .dotted ∧ own = .header then none
      else do
        let sub ← change origin f path own sub
        return Table.set key (.table own sub) entries

/-- Add a value under a dotted key. -/
def add (key : List Text) (j : Json) (own : Origin) (entries : Entries) : Option Entries := do
  let name ← key.getLast?
  let path := key.dropLast
  let put (origin : Origin) (entries : Entries) : Option Entries :=
    if Table.has entries name || (origin == .dotted) == path.isEmpty then none
    else some (Table.set name (.value j) entries)
  change .dotted put path own entries

/-- Open a table by its header. -/
def openTable (key : List Text) (entries : Entries) : Option Entries := do
  let name ← key.getLast?
  let put (_ : Origin) (entries : Entries) : Option Entries :=
    match entries.lookup name with
    | none => some (Table.set name (.table .header []) entries)
    | some (.table .implied sub) => some (Table.set name (.table .header sub) entries)
    | _ => none
  change .implied put key.dropLast .header entries

/-- Open a new table of an array of tables. -/
def openItem (key : List Text) (entries : Entries) : Option Entries := do
  let name ← key.getLast?
  let put (_ : Origin) (entries : Entries) : Option Entries :=
    match entries.lookup name with
    | none => some (Table.set name (.tables [] []) entries)
    | some (.tables closed last) => some (Table.set name (.tables (closed ++ [last]) []) entries)
    | _ => none
  change .implied put key.dropLast .header entries

/-- Add a value under a dotted key of the table with a header. -/
def addUnder (header key : List Text) (j : Json) (entries : Entries) : Option Entries :=
  change .implied (add key j) header .header entries

end Entries

end Restyle.Toml
