import Restyle.Breakpoint.Basic

/-! # Breakpoint overrides

An override is a JSON object with a key, a width of at least one pixel and an
optional base flag. Entries that are anything else are passed over. A base
override, or one for the desktop, moves the lower bound of the desktop to one
pixel above its width.
-/

namespace Restyle

/-- A usable override entry. -/
structure Override where
  key : Text
  width : Nat
  base : Bool
  deriving DecidableEq, Repr

namespace Override

def keyOf : Json → Text
  | .string t => Breakpoint.cleanKey t
  | .number n => Breakpoint.cleanKey n.toText
  | _ => []

/-- The whole part of a width of at least one, or the greatest width if there is none. -/
def widthOfReal? : Binary64 → Option Nat
  | .finite negative m e =>
    let width := Binary64.wholePart m e
    if negative || width = 0 then none else some (min width Breakpoint.maxWidth)
  | .infinite negative => if negative then none else some Breakpoint.maxWidth
  | .nan => some Breakpoint.maxWidth

def widthOf? : Json → Option Nat
  | .number (.integer n) => if n < 1 then none else some (min n.toNat Breakpoint.maxWidth)
  | .number (.real x) => widthOfReal? x
  | .string t => (Binary64.ofText? t.trim).bind widthOfReal?
  | _ => none

def flagOf : Json → Bool
  | .bool b => b
  | .number n => !n.isZero
  | .string t => !(t = [] || t = "0")
  | .null => false
  | .array items => !items.isEmpty
  | .object entries => !entries.isEmpty

def ofJson? (j : Json) : Option Override :=
  let key := ((j.get? "key").map keyOf).getD []
  match (j.get? "width").bind widthOf? with
  | none => none
  | some width =>
    if key.isEmpty then none else some ⟨key, width, ((j.get? "base").map flagOf).getD false⟩

/-- Override entries from an option text: the items of an array or the values of an object. -/
def entriesOfText (t : Text) : List Json :=
  match (Json.ofText? t).map Json.merged with
  | some (.array items) => items
  | some (.object entries) => Table.values entries
  | _ => []

end Override

namespace Breakpoint

def override (t : Table Breakpoint) (o : Override) : Table Breakpoint :=
  if o.key = desktop || o.base then
    t.set desktop ⟨desktop, .least, min (o.width + 1) maxWidth⟩
  else t.set o.key ⟨o.key, .most, o.width⟩

/-- Put a breakpoint before the first that is not wider. -/
def insertByWidth (b : Breakpoint) : List Breakpoint → List Breakpoint
  | [] => [b]
  | c :: bs => if c.width ≤ b.width then b :: c :: bs else c :: insertByWidth b bs

/-- Order breakpoints by falling width; equal widths keep their order. -/
def sortByWidth (bs : List Breakpoint) : List Breakpoint :=
  bs.foldr insertByWidth []

/-- The breakpoints under a list of override entries, the desktop first. -/
def table (entries : List Json) : Table Breakpoint :=
  let all := (entries.filterMap Override.ofJson?).foldl override builtin
  let others := sortByWidth (all.erase desktop).values
  ((all.get? desktop).toList ++ others).map fun b => (b.key, b)

end Breakpoint

end Restyle
