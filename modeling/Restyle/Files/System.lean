import Restyle.Files.Tree

/-! # File systems

A program that works with files names the monad in which it does so. A tree of
files is such a world of its own: reading looks at it and writing changes it.
-/

namespace Restyle

class FileSystem (m : Type → Type) where
  read (path : Text) : m (Except FileError Text)
  write (path text : Text) : m (Except FileError Unit)
  makeDirectories (path : Text) : m (Except FileError Unit)
  /-- The directory at a path as it is now, and those above it. -/
  directory? (path : Text) : m (Option Place)

/-- Change the tree, unless the change fails. -/
def FileTree.change (f : FileTree → Except FileError FileTree) :
    StateM FileTree (Except FileError Unit) := do
  match f (← get) with
  | .ok t =>
    set t
    return .ok ()
  | .error e => return .error e

instance : FileSystem (StateM FileTree) where
  read path := do return (← get).read path
  write path text := FileTree.change (·.write path text)
  makeDirectories path := FileTree.change (·.makeDirectories path)
  directory? path := do return (← get).directory? path

end Restyle
