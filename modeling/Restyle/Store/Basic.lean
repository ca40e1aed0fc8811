import Restyle.Store.Document
import Restyle.Store.Merge

/-! # Style stores

Changes are staged beside the stored document and written all together. What a
failed commit had staged is dropped, and the stored document stays. How a
document is written is a parameter of every operation that commits.
-/

namespace Restyle

/-- What those who build on the styles are told. -/
inductive Signal where
  | stylesUpdated
  | rebuildCss
  deriving DecidableEq, Repr

structure Store where
  document : Document := {}
  pending : Option Document := none
  signals : List Signal := []
  invalidations : Nat := 0
  deriving DecidableEq, Repr

namespace Store

variable {m : Type → Type} [Monad m] {ε : Type}

def staged (s : Store) : Document :=
  s.pending.getD s.document

def stage (s : Store) (change : Document → Document) : Store :=
  { s with pending := some (change s.staged) }

/-- Write what is staged, if anything is. -/
def commit (write : Document → m (Except ε Unit)) (s : Store) : m (Except ε Unit × Store) :=
  match s.pending with
  | none => pure (.ok (), s)
  | some d => do
    match ← write d with
    | .ok () => return (.ok (), { s with document := d, pending := none })
    | .error e => return (.error e, { s with pending := none })

/-- Forget cached styles, once for the new version and once for the rebuild, and signal it. -/
def rebuild (s : Store) : Store :=
  { s with
    invalidations := s.invalidations + 2
    signals := s.signals ++ [.stylesUpdated, .rebuildCss] }

/-- How many selectors an import brought, how many styles there are now, and the new version. -/
structure Summary where
  incoming : Nat
  merged : Nat
  version : UInt64
  deriving DecidableEq, Repr

/-- Merge styles into the stored ones and replace the style map, in a new version. -/
def importStyles (write : Document → m (Except ε Unit)) (styles : List Style) (styleMap : StyleMap)
    (s : Store) : m (Except ε Summary × Store) := do
  let incoming := Style.incoming styles
  let merged := Style.merge s.document.styles incoming
  let s := s.stage fun d => { d with styles := merged, styleMap, version := d.version + 1 }
  let version := s.staged.version
  match ← s.commit write with
  | (.ok (), s) => return (.ok ⟨incoming.length, merged.length, version⟩, s.rebuild)
  | (.error e, s) => return (.error e, s)

/-- Replace the declarations of utility classes. -/
def saveInline (write : Document → m (Except ε Unit)) (inline : Table Text) (s : Store) :
    m (Except ε Unit × Store) :=
  (s.stage fun d => { d with inline }).commit write

/-- Import styles, and then save the declarations of utility classes. -/
def importAll (write : Document → m (Except ε Unit)) (styles : List Style) (styleMap : StyleMap)
    (inline : Table Text) (s : Store) : m (Except ε Summary × Store) := do
  match ← s.importStyles write styles styleMap with
  | (.error e, s) => return (.error e, s)
  | (.ok summary, s) =>
    let (saved, s) ← s.saveInline write inline
    return (saved.map fun _ => summary, s)

inductive Step where
  | importStyles (styles : List Style) (styleMap : StyleMap)
  | saveInline (inline : Table Text)

inductive Answer where
  | imported (s : Summary)
  | saved
  deriving DecidableEq, Repr

def step (write : Document → m (Except ε Unit)) : Step → Store → m (Except ε Answer × Store)
  | .importStyles styles styleMap, s => do
    let (r, s) ← s.importStyles write styles styleMap
    return (r.map .imported, s)
  | .saveInline inline, s => do
    let (r, s) ← s.saveInline write inline
    return (r.map fun _ => .saved, s)

end Store

end Restyle
