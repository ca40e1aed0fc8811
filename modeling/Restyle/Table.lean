import Restyle.Text.Basic

/-! # Ordered tables

A table maps texts to values and remembers the order in which its keys first
came. Setting a key again changes its value and leaves it in its place.
-/

namespace Restyle

abbrev Table (β : Type) := List (Text × β)

namespace Table

variable {β : Type}

def get? (t : Table β) (key : Text) : Option β :=
  t.lookup key

def has (t : Table β) (key : Text) : Bool :=
  (t.get? key).isSome

def set (key : Text) (value : β) : Table β → Table β
  | [] => [(key, value)]
  | (k, v) :: t => if k = key then (k, value) :: t else (k, v) :: set key value t

def keys (t : Table β) : List Text :=
  t.map (·.1)

def values (t : Table β) : List β :=
  t.map (·.2)

/-- The table without a key. -/
def erase (key : Text) (t : Table β) : Table β :=
  t.filter (·.1 ≠ key)

/-- Set the pairs from left to right. -/
def setAll (pairs : List (Text × β)) (t : Table β) : Table β :=
  pairs.foldl (fun t p => t.set p.1 p.2) t

/-- The table of a list of pairs; of a repeated key the last value counts. -/
def ofList (pairs : List (Text × β)) : Table β :=
  setAll pairs []

/-- Change the value of a key, starting from a default one. -/
def update (key : Text) (default : β) (f : β → β) (t : Table β) : Table β :=
  t.set key (f ((t.get? key).getD default))

/-- Group values under their keys, both in order of appearance. -/
def group {α : Type} (pairs : List (Text × α)) : Table (List α) :=
  pairs.foldl (fun t p => t.update p.1 [] (· ++ [p.2])) []

end Table

end Restyle
