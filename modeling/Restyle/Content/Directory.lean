import Restyle.Content.Basic
import Restyle.Files.Ignore

/-! # Content on disk

Content lies in the JSON files below a directory whose paths match one of some
globs. Files that cannot be read as content are passed over. The classes lie in
one file.
-/

namespace Restyle

inductive ContentError where
  | read (path : Text) (cause : FileError)
  | malformed (path : Text)
  | glob (pattern : Text)
  | missingDirectory (path : Text)
  deriving DecidableEq, Repr

def ContentError.message : ContentError → Text
  | read path cause => "failed to read " ++ path ++ ": " ++ cause.message
  | malformed path => "failed to parse " ++ path
  | glob pattern => "invalid glob pattern '" ++ pattern ++ "'"
  | missingDirectory path => "content directory " ++ path ++ " does not exist"

/-- What a reader makes of the file that was read from a path. -/
def ContentError.parse {α : Type} (path : Text) (read : Text → Option α) :
    Except FileError Text → Except ContentError α
  | .ok text => (read text).elim (.error (.malformed path)) .ok
  | .error cause => .error (.read path cause)

section

variable {m : Type → Type} [Monad m] [FileSystem m]

/-- The items of a content file. -/
def Item.load (path : Text) : m (Except ContentError (List Item)) := do
  return ContentError.parse path listOfText? (← FileSystem.read path)

/-- The classes of a class file. -/
def GlobalClass.load (path : Text) : m (Except ContentError (List GlobalClass)) := do
  return ContentError.parse path listOfText? (← FileSystem.read path)

end

structure ContentDirectory where
  filesLoaded : Nat
  items : List Item

namespace ContentDirectory

def defaultPattern : Text := "**/*.json"

/-- The globs of some patterns, or the first pattern that is none. -/
def globsOf : List Text → Except ContentError (List Glob)
  | [] => .ok []
  | pattern :: patterns =>
    match Glob.ofText? false pattern with
    | some g => (globsOf patterns).map (g :: ·)
    | none => .error (.glob pattern)

/-- The globs of some patterns, if none of them is too deep. -/
def globs (patterns : List Text) : Except ContentError (List Glob) := do
  let globs ← globsOf patterns
  if globs.all fun g => g.depth .pass ≤ Glob.depthLimit then return globs
  else throw (.glob (Text.join "," patterns))

/-- The content of the files that match a glob. -/
def ofFiles (files : List (Text × Text)) (globs : List Glob) : ContentDirectory :=
  let files := files.filter fun (path, _) => globs.any (·.isMatch .pass path)
  let loaded := files.filterMap fun (_, text) => Item.listOfText? text
  ⟨loaded.length, loaded.flatten⟩

/-- Load the content below a directory; without patterns every JSON file counts. -/
def load {m : Type → Type} [Monad m] [FileSystem m] (path : Text) (patterns : List Text) :
    m (Except ContentError ContentDirectory) := do
  match ← FileSystem.directory? path with
  | none => return .error (.missingDirectory path)
  | some p =>
    match globs (if patterns.isEmpty then [defaultPattern] else patterns) with
    | .error e => return .error e
    | .ok globs => return .ok (ofFiles (← p.walk path) globs)

end ContentDirectory

end Restyle
