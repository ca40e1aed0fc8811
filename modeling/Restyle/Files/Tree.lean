import Restyle.Text.Basic

/-! # Trees of files

A directory keeps its entries in the order of their names. A path is followed
part by part from the root of a tree: an empty part and `.` stay where they
are, `..` goes up, and all three need a directory to stand on. Nothing lies
outside the tree, so an absolute path leads nowhere.
-/

namespace Restyle

/-- Why a file could not be read or written. -/
inductive FileError where
  | missing
  | occupied
  | notDirectory
  | isDirectory
  | longName
  | zeroByte
  | other (message : Text)
  deriving DecidableEq, Repr

def FileError.message : FileError → Text
  | missing => "No such file or directory (os error 2)"
  | occupied => "File exists (os error 17)"
  | notDirectory => "Not a directory (os error 20)"
  | isDirectory => "Is a directory (os error 21)"
  | longName => "File name too long (os error 36)"
  | zeroByte => "file name contained an unexpected NUL byte"
  | other message => message

namespace Path

/-- The longest name and the longest path, in bytes. -/
def maxName : Nat := 255
def maxPath : Nat := 4095

def here : Text := "."
def up : Text := ".."

def parts (path : Text) : List Text :=
  path.split (· == '/')

/-- The parts of a relative path. -/
def relativeParts (path : Text) : Except FileError (List Text) :=
  if path.contains ['\x00'] then .error .zeroByte
  else if maxPath < path.byteSize then .error .longName
  else if path.isEmpty || path.startsWith "/" then .error .missing
  else .ok (parts path)

/-- Whether a part only stands for the directory it is met in. -/
def stays (part : Text) : Bool :=
  part.isEmpty || part = here

/-- The path of an entry of a directory. -/
def join (directory name : Text) : Text :=
  if directory.isEmpty || directory.getLast? = some '/' then directory ++ name
  else directory ++ '/' :: name

/-- Whether a path leads to a name at which it starts, and no further. -/
def isOnly (name path : Text) : Bool :=
  match parts path with
  | part :: others => part = name && others.all stays
  | [] => false

/-- The path of the directory in which a path lies, unless the path is a single name. -/
def parent? (path : Text) : Option Text :=
  let directory := ((parts path).filter (!stays ·)).dropLast
  if path.startsWith "/" then some ('/' :: Text.join "/" directory)
  else if directory.isEmpty then none
  else some (Text.join "/" directory)

end Path

inductive FileTree where
  | file (text : Text)
  | directory (entries : List (Text × FileTree))

namespace FileTree

def empty : FileTree :=
  directory []

/-- Put an entry into its place among entries in order, instead of one with its name. -/
def insert (name : Text) (t : FileTree) : List (Text × FileTree) → List (Text × FileTree)
  | [] => [(name, t)]
  | (n, u) :: entries =>
    if n = name then (name, t) :: entries
    else if name.le n then (name, t) :: (n, u) :: entries
    else (n, u) :: insert name t entries

/-- The entry with a name in a directory. -/
def get? (t : FileTree) (name : Text) : Option FileTree :=
  match t with
  | directory entries => entries.lookup name
  | file _ => none

def text? : FileTree → Option Text
  | file text => some text
  | directory _ => none

mutual

/-- The texts of all files below a directory under their paths, which start with the one given. -/
def files (path : Text) : FileTree → List (Text × Text)
  | file text => [(path, text)]
  | directory entries => filesOf path entries

def filesOf (path : Text) : List (Text × FileTree) → List (Text × Text)
  | [] => []
  | (name, t) :: entries =>
    t.files (if path.isEmpty then name else path ++ '/' :: name) ++ filesOf path entries

end

end FileTree

/-- A tree seen from one of its places: what is there, and the directories above it with the name
by which one comes down, the nearest first. -/
structure Place where
  here : FileTree
  above : List (Text × FileTree) := []

namespace Place

/-- The place above, with what is here put back into it. -/
def up? (p : Place) : Option Place :=
  match p.above with
  | (name, .directory entries) :: above =>
    some ⟨.directory (FileTree.insert name p.here entries), above⟩
  | _ => none

/-- The whole tree. -/
def tree (p : Place) : FileTree :=
  p.above.foldl (fun t (level : Text × FileTree) =>
    match level.2 with
    | .directory entries => .directory (FileTree.insert level.1 t entries)
    | .file _ => t) p.here

def down (p : Place) (name : Text) (t : FileTree) : Place :=
  ⟨t, (name, p.here) :: p.above⟩

/-- Follow one part of a path. -/
def step (p : Place) (part : Text) : Except FileError Place :=
  match p.here with
  | .file _ => .error .notDirectory
  | .directory entries =>
    if Path.stays part then .ok p
    else if part = Path.up then p.up?.elim (.error .missing) .ok
    else if Path.maxName < part.byteSize then .error .longName
    else (entries.lookup part).elim (.error .missing) fun t => .ok (p.down part t)

def follow (p : Place) : List Text → Except FileError Place
  | [] => .ok p
  | part :: parts =>
    match p.step part with
    | .ok p => p.follow parts
    | .error e => .error e

/-- Follow a path and make the directories that are missing. -/
def make (p : Place) : List Text → Except FileError Place
  | [] => .ok p
  | part :: parts =>
    match p.step part with
    | .ok q =>
      match q.here with
      | .directory _ => q.make parts
      | .file _ => .error (if parts.isEmpty then .occupied else .notDirectory)
    | .error .missing =>
      if part = Path.up then .error .missing else (p.down part .empty).make parts
    | .error e => .error e

end Place

namespace FileTree

def follow (t : FileTree) (path : Text) : Except FileError Place := do
  Place.follow ⟨t, []⟩ (← Path.relativeParts path)

def read (t : FileTree) (path : Text) : Except FileError Text := do
  match (← t.follow path).here with
  | file text => .ok text
  | directory _ => .error .isDirectory

/-- The directory at a path. -/
def directory? (t : FileTree) (path : Text) : Option Place :=
  match t.follow path with
  | .ok p =>
    match p.here with
    | .directory _ => some p
    | .file _ => none
  | .error _ => none

/-- Make the directories of a path that are missing. -/
def makeDirectories (t : FileTree) (path : Text) : Except FileError FileTree := do
  let parts ← Path.relativeParts path
  let p ← Place.make ⟨t, []⟩ (parts.filter (!Path.stays ·))
  return p.tree

/-- Write a file in a directory; what is no plain name stands for a directory. -/
def writeName (p : Place) (name text : Text) : Except FileError FileTree :=
  match p.here with
  | file _ => .error .notDirectory
  | directory entries =>
    if Path.stays name || name = Path.up then .error .isDirectory
    else if Path.maxName < name.byteSize then .error .longName
    else match entries.lookup name with
      | some (directory _) => .error .isDirectory
      | _ => .ok (p.down name (file text)).tree

/-- Write a file into a directory that is there. A path that ends with `/` stands for a
directory. -/
def write (t : FileTree) (path text : Text) : Except FileError FileTree := do
  let parts ← Path.relativeParts path
  let named := (parts.reverse.dropWhile (·.isEmpty)).reverse
  let p ← Place.follow ⟨t, []⟩ named.dropLast
  writeName p (if named.length < parts.length then [] else named.getLast?.getD []) text

end FileTree

end Restyle
