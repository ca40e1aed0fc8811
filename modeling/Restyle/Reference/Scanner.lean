import Restyle.Reference.Basic

/-! # Scanning for references

A scanner remembers the class list of a run and whether a scan has met any
content. Without such a scan an empty index stands for everything, after it
for nothing.
-/

namespace Restyle

structure Scanner where
  classes : Option (List GlobalClass) := none
  scanned : Bool := false

namespace Scanner

def templates : Text := "bricks_template"

/-- The mark before the names of imported utility classes. -/
def importMark : Text := "acss_import_"

def reset (_ : Scanner) : Scanner :=
  {}

/-- The class list of the run, which is taken the first time. -/
def classList (s : Scanner) (classes : List GlobalClass) : List GlobalClass :=
  s.classes.getD classes

def keep (s : Scanner) (classes : List GlobalClass) : Scanner :=
  { s with classes := some (s.classList classes) }

/-- The items that a scan for some post types looks at; templates are always among them. -/
def itemsToScan (items : List Item) (postTypes : List Text) : List Item :=
  let resolved := PostType.resolve postTypes
  PostType.select items (if resolved.contains templates then resolved else resolved ++ [templates])

/-- The references in the content, and the scanner after the scan. -/
def scan (s : Scanner) (items : List Item) (postTypes : List Text) : List Text × Scanner :=
  let found := itemsToScan items postTypes
  (Reference.index found, { s with scanned := !found.isEmpty })

def isReferenced (s : Scanner) (c : GlobalClass) (index : List Text) : Bool :=
  if index.isEmpty then !s.scanned
  else
    let id := c.id.trim
    let name := c.name.trim
    (!id.isEmpty && index.contains id) ||
      (!name.isEmpty && (index.contains name || index.contains (importMark ++ name)))

/-- How many classes there are and how many of them migrate. -/
structure Counts where
  total : Nat
  toMigrate : Nat
  deriving DecidableEq, Repr

def count (s : Scanner) (classes : List GlobalClass) (items : List Item) (postTypes : List Text)
    (restrict : Bool) : Counts × Scanner :=
  let s := s.keep classes
  let all := s.classList classes
  if restrict then
    let (index, s) := s.scan items postTypes
    (⟨all.length, (all.filter (s.isReferenced · index)).length⟩, s)
  else (⟨all.length, all.length⟩, s)

/-- A scanner and the index of its last scan. -/
structure State where
  scanner : Scanner := {}
  index : List Text := []

inductive Step where
  | reset
  | insert (identifier : Text)
  | contains (identifier : Text)
  | scan (items : List Item) (postTypes : List Text)
  | isReferenced (c : GlobalClass)
  | classes (classes : List GlobalClass)
  | count (classes : List GlobalClass) (items : List Item) (postTypes : List Text)
      (restrict : Bool)

inductive Answer where
  | done
  | truth (b : Bool)
  | index (index : List Text) (scanned : Bool)
  | classes (classes : List GlobalClass)
  | counts (c : Counts) (scanned : Bool)

def State.step (s : State) : Step → Answer × State
  | .reset => (.done, { s with scanner := s.scanner.reset })
  | .insert identifier =>
    (.truth !identifier.trim.isEmpty, { s with index := Reference.insert s.index identifier })
  | .contains identifier => (.truth (s.index.contains identifier), s)
  | .scan items postTypes =>
    let (index, scanner) := s.scanner.scan items postTypes
    (.index index scanner.scanned, ⟨scanner, index⟩)
  | .isReferenced c => (.truth (s.scanner.isReferenced c s.index), s)
  | .classes classes =>
    (.classes (s.scanner.classList classes), { s with scanner := s.scanner.keep classes })
  | .count classes items postTypes restrict =>
    let (counts, scanner) := s.scanner.count classes items postTypes restrict
    (.counts counts scanner.scanned, { s with scanner })

end Scanner

end Restyle
