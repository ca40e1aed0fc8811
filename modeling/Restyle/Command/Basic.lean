import Restyle.Text.Basic

/-! # The command line

There are four commands and one for help. Three of them take the same sources
as flags; a flag that comes again replaces its value, except post types, which
add up. A value is whatever comes next, even if it looks like a flag.
-/

namespace Restyle

/-- Where a command finds its content, and what it takes of it. -/
structure Sources where
  content : Text
  config : Option Text := none
  postTypes : List Text := []
  /-- Take classes that nothing refers to as well. -/
  allClasses : Bool := false
  deriving DecidableEq, Repr

/-- Where converted styles go: into a store, or only into a report, whatever store is named. -/
inductive Target where
  | store (path : Text)
  | report (unused : Option Text)
  deriving DecidableEq, Repr

inductive Command where
  | scan (sources : Sources) (classes : Option Text)
  | count (sources : Sources) (classes : Text)
  | convert (sources : Sources) (classes : Text) (target : Target)
  | validate (files : List Text) (fix : Bool)
  | help
  deriving DecidableEq, Repr

/-- The commands that read content. -/
inductive Verb where
  | scan
  | count
  | convert
  deriving DecidableEq, Repr

inductive Flag where
  | content
  | classes
  | config
  | postType
  | store
  deriving DecidableEq, Repr

inductive UsageError where
  | unknownCommand (name : Text)
  | missingValue (verb : Verb) (flag : Flag)
  | convertOnly (flag : Text)
  | argument (verb : Verb) (value : Text)
  | missingContent (verb : Verb)
  | missingClasses (verb : Verb)
  | missingTarget
  | missingFiles
  deriving DecidableEq, Repr

namespace Verb

def name : Verb → Text
  | scan => "scan"
  | count => "count"
  | convert => "convert"

end Verb

namespace Flag

def name : Flag → Text
  | content => "--content"
  | classes => "--classes"
  | config => "--config"
  | postType => "--post-type"
  | store => "--store"

def shortName : Flag → Text
  | content => "-d"
  | classes => "-g"
  | config => "-c"
  | postType => "-t"
  | store => "-o"

/-- The flag that takes a value under a name. -/
def ofName? (t : Text) : Option Flag :=
  [content, classes, config, postType, store].find? fun f => t = f.name || t = f.shortName

def all : Text := "--all"
def dryRun : Text := "--dry-run"
def fix : Text := "--fix"

end Flag

def UsageError.message : UsageError → Text
  | unknownCommand name => "unknown command: " ++ name
  | missingValue verb flag => verb.name ++ " requires a value for " ++ flag.name
  | convertOnly flag => flag ++ " is only supported with convert"
  | argument verb value => verb.name ++ " does not accept argument: " ++ value
  | missingContent verb => verb.name ++ " requires a content directory (--content)"
  | missingClasses verb => verb.name ++ " requires a global classes file (--classes)"
  | missingTarget => "convert requires --store <path> or --dry-run"
  | missingFiles => "validate requires at least one css file"

/-- The flags of a command that have been read. -/
structure Flags where
  content : Option Text := none
  classes : Option Text := none
  config : Option Text := none
  postTypes : List Text := []
  allClasses : Bool := false
  store : Option Text := none
  dryRun : Bool := false

namespace Flags

def set (f : Flags) (value : Text) : Flag → Flags
  | .content => { f with content := some value }
  | .classes => { f with classes := some value }
  | .config => { f with config := some value }
  | .postType => { f with postTypes := f.postTypes ++ [value] }
  | .store => { f with store := some value }

/-- Take an argument that has no value. -/
def switch (f : Flags) (verb : Verb) (arg : Text) : Except UsageError Flags :=
  if arg = Flag.all then .ok { f with allClasses := true }
  else if arg ≠ Flag.dryRun then .error (.argument verb arg)
  else if verb ≠ .convert then .error (.convertOnly arg)
  else .ok { f with dryRun := true }

/-- Read the flags of a command. -/
def read (verb : Verb) (f : Flags) : List Text → Except UsageError Flags
  | [] => .ok f
  | arg :: args =>
    match Flag.ofName? arg with
    | none =>
      match f.switch verb arg with
      | .ok f => read verb f args
      | .error e => .error e
    | some flag =>
      if flag = .store ∧ verb ≠ .convert then .error (.convertOnly flag.name)
      else match args with
        | [] => .error (.missingValue verb flag)
        | value :: args => read verb (f.set value flag) args

def sources (f : Flags) (content : Text) : Sources :=
  { content, config := f.config, postTypes := f.postTypes, allClasses := f.allClasses }

def target? (f : Flags) : Option Target :=
  if f.dryRun then some (.report f.store) else f.store.map .store

end Flags

namespace Command

/-- The command that a verb makes of its flags. -/
def ofFlags (verb : Verb) (f : Flags) : Except UsageError Command :=
  match f.content with
  | none => .error (.missingContent verb)
  | some content =>
    match verb, f.classes with
    | .scan, classes => .ok (.scan (f.sources content) classes)
    | verb, none => .error (.missingClasses verb)
    | .count, some classes => .ok (.count (f.sources content) classes)
    | .convert, some classes =>
      f.target?.elim (.error .missingTarget) fun target =>
        .ok (.convert (f.sources content) classes target)

def ofVerb (verb : Verb) (args : List Text) : Except UsageError Command := do
  ofFlags verb (← Flags.read verb {} args)

def ofFiles (args : List Text) : Except UsageError Command :=
  let files := args.filter (· ≠ Flag.fix)
  if files.isEmpty then .error .missingFiles
  else .ok (.validate files (args.contains Flag.fix))

/-- The command that arguments stand for; without any it is the one for help. -/
def ofArgs : List Text → Except UsageError Command
  | [] => .ok .help
  | name :: args =>
    match [Verb.scan, .count, .convert].find? (·.name = name) with
    | some verb => ofVerb verb args
    | none =>
      if name = "validate" then ofFiles args
      else if (["-h", "--help", "help"] : List Text).contains name then .ok .help
      else .error (.unknownCommand name)

end Command

end Restyle
