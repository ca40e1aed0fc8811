import Restyle.Files.System
import Restyle.Store.Basic

/-! # Stores in files and in memory

A file store keeps its document as wide JSON in one file. A file that is not
there yet, or is blank, holds the empty document. A store in memory keeps
nothing else, and may refuse to save.
-/

namespace Restyle

inductive StoreError where
  | read (path : Text) (cause : FileError)
  | write (path : Text) (cause : FileError)
  | malformed (path : Text)
  | rejected
  deriving DecidableEq, Repr

def StoreError.message : StoreError → Text
  | read path cause => "failed to read style store " ++ path ++ ": " ++ cause.message
  | write path cause => "failed to write style store " ++ path ++ ": " ++ cause.message
  | malformed path => "invalid style store " ++ path
  | rejected => "style store rejected the save: memory store is read-only"

namespace Store

variable {m : Type → Type} [Monad m] [FileSystem m]

/-- The document in what was read from a path. -/
def documentIn (path : Text) : Except FileError Text → Except StoreError Document
  | .ok text => (Document.ofText? text).elim (.error (.malformed path)) .ok
  | .error .missing => .ok {}
  | .error cause => .error (.read path cause)

/-- Open the store in a file. -/
def openAt (path : Text) : m (Except StoreError Store) := do
  match documentIn path (← FileSystem.read path) with
  | .ok document => return .ok { document }
  | .error e => return .error e

/-- Write a document to a file, whose directory is made where it is missing. -/
def writeAt (path : Text) (d : Document) : m (Except StoreError Unit) := do
  let made ← match Path.parent? path with
    | some directory => FileSystem.makeDirectories directory
    | none => pure (.ok ())
  match made with
  | .error cause => return .error (.write path cause)
  | .ok () => return (← FileSystem.write path d.toText).mapError (.write path)

/-- Keep a document in memory only, or refuse to. -/
def writeMemory (rejects : Bool) (_ : Document) : Id (Except StoreError Unit) :=
  if rejects then .error .rejected else .ok ()

end Store

end Restyle
