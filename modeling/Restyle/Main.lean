import Restyle.Command.Run

/-! # The program

The files of the machine, and the entry point: run the command of the
arguments, print its report and fail if it failed.
-/

namespace Restyle

/-- Why the machine could not do something with a file. -/
def FileError.ofSystem (e : IO.Error) : FileError :=
  match e with
  | .noFileOrDirectory .. => .missing
  | .alreadyExists .. => .occupied
  | .inappropriateType _ code _ => if code = 21 then .isDirectory else .notDirectory
  | .invalidArgument _ code _ => if code = 22 then .zeroByte else .longName
  | e => .other e.toString.toList

namespace Machine

/-- The result of an action on files. -/
def attempt {α : Type} (action : IO α) : IO (Except FileError α) := do
  match ← action.toBaseIO with
  | .ok a => return .ok a
  | .error e => return .error (.ofSystem e)

def read (path : Text) : IO (Except FileError Text) :=
  attempt do return (← IO.FS.readFile (String.ofList path)).toList

/-- The entries of a directory. -/
def entries (path : Text) : IO (Except FileError (Array IO.FS.DirEntry)) :=
  attempt do (← IO.FS.realPath (String.ofList path)).readDir

/-- The files and directories below a directory; what cannot be read is left out. -/
partial def treeAt (path : Text) : IO FileTree := do
  let mut found := []
  for entry in (← entries path).toOption.getD #[] do
    let name := entry.fileName.toList
    match (← attempt entry.path.symlinkMetadata).toOption.map IO.FS.Metadata.type with
    | some .dir => found := FileTree.insert name (← treeAt (path ++ '/' :: name)) found
    | some .file =>
      if let .ok text ← read (path ++ '/' :: name) then
        found := FileTree.insert name (.file text) found
    | _ => pure ()
  return .directory found

/-- The ignore files of a directory. -/
def ignoreFilesAt (path : Text) : IO FileTree := do
  let names := (← entries path).toOption.getD #[]
  let mut found := []
  for name in ([".ignore", ".gitignore"] : List Text) do
    if let .ok text ← read (path ++ '/' :: name) then
      found := FileTree.insert name (.file text) found
  if names.any (·.fileName == ".git") then
    let control ← match ← read (path ++ "/.git") with
      | .ok text => pure (FileTree.file text)
      | .error _ => match ← read (path ++ "/.git/info/exclude") with
        | .ok text => pure (.directory [("info", .directory [("exclude", .file text)])])
        | .error _ => pure .empty
    found := FileTree.insert ".git" control found
  if names.any (·.fileName == ".jj") then
    found := FileTree.insert ".jj" .empty found
  return .directory found

/-- The directories above an absolute path whose parts are given last first. -/
def above : List Text → IO (List (Text × FileTree))
  | [] => return []
  | name :: parts => do
    let t ← ignoreFilesAt ('/' :: Text.join "/" parts.reverse)
    return (name, t) :: (← above parts)

def directory? (path : Text) : IO (Option Place) := do
  match ← entries path with
  | .error _ => return none
  | .ok _ =>
    let absolute : Text := (← IO.FS.realPath (String.ofList path)).toString.toList
    return some ⟨← treeAt path, ← above ((Path.parts absolute).filter (!·.isEmpty)).reverse⟩

end Machine

instance : FileSystem IO where
  read := Machine.read
  write path text :=
    Machine.attempt (IO.FS.writeFile (String.ofList path) (String.ofList text))
  makeDirectories path := Machine.attempt (IO.FS.createDirAll (String.ofList path))
  directory? := Machine.directory?

end Restyle

def main (args : List String) : IO UInt32 := do
  let report ← (Restyle.Command.runArgs (args.map String.toList) : IO Restyle.Report)
  for line in report.output do
    IO.println (String.ofList line)
  for line in report.messages do
    IO.eprintln (String.ofList line)
  match report.error with
  | none => return 0
  | some e =>
    IO.eprintln ("error: " ++ String.ofList e.message)
    return 1
