import Restyle.Files.System
import Restyle.Glob.Reader
import Restyle.Text.Substitution

/-! # Ignored files

A line of an ignore file is a glob for paths below its directory. The last line
that applies to a path decides, and the nearest file with a decision. Files
named `.ignore` count everywhere and come first. Those of a version-controlled
work tree count inside it and not above its top, where `.git` or `.jj` is. The
control directory of a work tree may be elsewhere, as a file `.git` says.
-/

namespace Restyle

open Text

/-- A line of an ignore file. -/
structure IgnoreRule where
  glob : Glob
  /-- Whether the rule takes back earlier ones. -/
  keeps : Bool
  directoriesOnly : Bool

namespace IgnoreRule

/-- The line without the mark that takes back, and whether it had it. A backslash keeps the mark
of such a line, or of a comment, from being one. -/
def unmark : Text → Bool × Text
  | '!' :: line => (true, line)
  | '\\' :: '!' :: line => (false, '!' :: line)
  | '\\' :: '#' :: line => (false, '#' :: line)
  | line => (false, line)

/-- The line without a slash at its end, and whether it had one, which stands for directories. -/
def cutSlash (line : Text) : Bool × Text :=
  match line.reverse with
  | '/' :: '\\' :: rest => (true, rest.reverse)
  | '/' :: rest => (true, rest.reverse)
  | _ => (false, line)

/-- The glob of a line: a slash before its end ties it to the directory of the file, and what
stands for all below a directory leaves out the directory itself. -/
def pattern (tied : Bool) (line : Text) : Text :=
  let deep := line.startsWith "**/" || line = "**"
  let line := if tied || deep || line.contains ['/'] then line else "**/" ++ line
  if startsWith line.reverse "**/" then line ++ "/*" else line

def ofLine? (line : Text) : Option IgnoreRule :=
  let line := if startsWith line.reverse " \\" then line else line.trimEnd
  if line.isEmpty || line.startsWith "#" then none
  else
    let (keeps, unmarked) := unmark line
    let (tied, rest) := match unmarked with
      | '/' :: rest => (true, rest)
      | rest => (false, rest)
    let (directoriesOnly, rest) := cutSlash rest
    (Glob.ofText? true (pattern tied rest)).map fun glob => ⟨glob, keeps, directoriesOnly⟩

/-- The rules of an ignore file. Lines that make no sense are passed over, but a glob that is too
deep spoils the file. -/
def listOfText (t : Text) : List IgnoreRule :=
  let rules := (lines (t.dropWhile (· == '\uFEFF'))).filterMap ofLine?
  if rules.all fun r => r.glob.depth .stop ≤ Glob.depthLimit then rules else []

def applies (path : Text) (isDirectory : Bool) (r : IgnoreRule) : Bool :=
  (!r.directoriesOnly || isDirectory) && r.glob.isMatch .stop path

/-- What rules decide about a path; true is to ignore it. -/
def verdict? (rules : List IgnoreRule) (path : Text) (isDirectory : Bool) : Option Bool :=
  (rules.reverse.find? (applies path isDirectory)).map (!·.keeps)

end IgnoreRule

namespace ControlLink

def mark : Text := "gitdir: "

/-- The first line of a text that is not blank. -/
def firstLine? (t : Text) : Option Text :=
  (lines t).head?

/-- Where a file `.git` says that the control directory is. -/
def target? (t : Text) : Option Text :=
  (firstLine? t).bind (·.dropStart? mark)

/-- The directory that several control directories share, as one of them says in a file. -/
def shared (directory line : Text) : Text :=
  if line.startsWith "." then Path.join directory line else line

end ControlLink

/-- Where the ignore files of a level are: in a directory on the walk, under the path by which the
walk comes to it, or above the walk, with the path from there to the start of the walk. -/
inductive Vantage where
  | onWalk (path : Text)
  | above (down : Text)

namespace Vantage

def dropHere (path : Text) : Text :=
  (path.dropStart? "./").getD path

/-- The path under which a directory on the walk sees an entry of the walk. -/
def seenFrom (directory path : Text) : Text :=
  let directory := dropHere directory
  let path := dropHere (dropHere path)
  if Path.isOnly Path.here directory || !path.contains ['/'] then path
  else match path.dropStart? directory with
    | some rest => (rest.dropStart? "/").getD rest
    | none => path

/-- The path under which an entry is seen, given its path on the walk and below its start. -/
def view (path below : Text) : Vantage → Text
  | onWalk directory => seenFrom directory path
  | above down => Path.join down below

end Vantage

/-- The ignore rules that a directory brings. -/
structure IgnoreLevel where
  vantage : Vantage
  own : List IgnoreRule
  workTree : List IgnoreRule
  excluded : List IgnoreRule
  /-- Whether the directory is the top of a work tree. -/
  isTop : Bool

/-- An entry that the walk comes to. -/
structure Visit where
  /-- The path by which the walk comes to it. -/
  path : Text
  /-- Its path below the start of the walk. -/
  below : Text

namespace Visit

def enter (v : Visit) (name : Text) : Visit :=
  ⟨Path.join v.path name, Path.join v.below name⟩

end Visit

namespace IgnoreLevel

def rulesIn (t : FileTree) (name : Text) : List IgnoreRule :=
  (((t.get? name).bind FileTree.text?).map IgnoreRule.listOfText).getD []

/-- The levels inside the work tree, its top included. -/
def inWorkTree : List IgnoreLevel → List IgnoreLevel
  | [] => []
  | l :: levels => l :: if l.isTop then [] else inWorkTree levels

/-- Whether levels, the nearest first, ignore an entry. -/
def ignores (levels : List IgnoreLevel) (v : Visit) (isDirectory : Bool) : Bool :=
  let decide (levels : List IgnoreLevel) (rules : IgnoreLevel → List IgnoreRule) :=
    levels.findSome? fun l =>
      IgnoreRule.verdict? (rules l) (l.vantage.view v.path v.below) isDirectory
  let controlled := if levels.any (·.isTop) then inWorkTree levels else []
  (decide levels own <|> decide controlled workTree <|> decide controlled excluded).getD false

variable {m : Type → Type} [Monad m] [FileSystem m]

/-- The rules of the work tree that are kept in its control directory. -/
def excludedBy (path : Text) : m (List IgnoreRule) := do
  match ← FileSystem.read (Path.join path "info/exclude") with
  | .ok text => return IgnoreRule.listOfText text
  | .error _ => return []

/-- The rules in the control directory that a file `.git` leads to. -/
def excludedElsewhere (text : Text) : m (List IgnoreRule) := do
  match ControlLink.target? text with
  | none => return []
  | some directory =>
    match ← FileSystem.read (Path.join directory "commondir") with
    | .error _ => return []
    | .ok text =>
      match ControlLink.firstLine? text with
      | none => return []
      | some line => excludedBy (ControlLink.shared directory line)

/-- The level of a directory. -/
def ofDirectory (t : FileTree) (vantage : Vantage) : m IgnoreLevel := do
  let excluded ← match t.get? ".git" with
    | some (.file text) => excludedElsewhere text
    | some control => pure (((control.get? "info").map (rulesIn · "exclude")).getD [])
    | none => pure []
  return {
    vantage, excluded
    own := rulesIn t ".ignore"
    workTree := rulesIn t ".gitignore"
    isTop := (t.get? ".git").isSome || (t.get? ".jj").isSome }

/-- The levels above a place, the nearest first, given the path from the first one down. -/
def above (down : Text) : List (Text × FileTree) → m (List IgnoreLevel)
  | [] => return []
  | (name, t) :: outer => do
    let down := if down.isEmpty then name else Path.join name down
    let level ← ofDirectory t (.above down)
    return level :: (← above down outer)

end IgnoreLevel

namespace FileTree

variable {m : Type → Type} [Monad m] [FileSystem m]

mutual

/-- The files of an entry that are not ignored, under their paths below the start of the walk, in
the order of the walk. -/
def walk (levels : List IgnoreLevel) (v : Visit) : FileTree → m (List (Text × Text))
  | file text => return if IgnoreLevel.ignores levels v false then [] else [(v.below, text)]
  | directory entries => do
    if IgnoreLevel.ignores levels v true then return []
    let level ← IgnoreLevel.ofDirectory (directory entries) (.onWalk v.path)
    walkEntries (level :: levels) v entries

def walkEntries (levels : List IgnoreLevel) (v : Visit) :
    List (Text × FileTree) → m (List (Text × Text))
  | [] => return []
  | (name, t) :: entries => do
    let found ← t.walk levels (v.enter name)
    return found ++ (← walkEntries levels v entries)

end

end FileTree

/-- The path that stands for the standard input, where there are no files. -/
def Path.standardInput : Text := "-"

/-- The files below a place that are not ignored, as a walk comes to them that starts at the place
by a path; the place itself always counts. -/
def Place.walk {m : Type → Type} [Monad m] [FileSystem m] (p : Place) (path : Text) :
    m (List (Text × Text)) := do
  if Path.isOnly Path.standardInput path then return []
  match p.here with
  | .file _ => return []
  | .directory entries =>
    let level ← IgnoreLevel.ofDirectory p.here (.onWalk path)
    let outer ← IgnoreLevel.above [] p.above
    FileTree.walkEntries (level :: outer) ⟨path, []⟩ entries

end Restyle
