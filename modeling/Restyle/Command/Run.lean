import Restyle.Command.Basic
import Restyle.Config.Basic
import Restyle.Content.Directory
import Restyle.Store.File
import Restyle.Stylesheet.Check

/-! # Running commands

A command leaves a report: the lines of its two outputs, and an error if it
failed. Commands on content load their settings, the content and the session
before they look for the classes.
-/

namespace Restyle

inductive CommandError where
  | usage (e : UsageError)
  | config (e : ConfigError)
  | content (e : ContentError)
  | store (e : StoreError)
  | readSheet (path : Text) (cause : FileError)
  | writeSheet (path : Text) (cause : FileError)
  | invalid (failed all : Nat)
  deriving DecidableEq, Repr

def CommandError.message : CommandError → Text
  | usage e => e.message
  | config e => e.message
  | content e => e.message
  | store e => e.message
  | readSheet path cause => "failed to read css " ++ path ++ ": " ++ cause.message
  | writeSheet path cause => "failed to write css " ++ path ++ ": " ++ cause.message
  | invalid failed all =>
    Text.ofNat failed ++ " of " ++ Text.ofNat all ++ " files failed validation"

/-- What a command prints, and why it failed if it did. -/
structure Report where
  output : List Text := []
  messages : List Text := []
  error : Option CommandError := none
  deriving DecidableEq, Repr

def Report.ofExcept : Except CommandError Report → Report
  | .ok r => r
  | .error e => { error := some e }

namespace Command

def helpLines : List Text :=
  ["etchcss", "", "USAGE:",
    "  etchcss scan --content <dir> [--config <path>] [--post-type <type>...]",
    "  etchcss count --content <dir> --classes <file> [--config <path>] [--post-type <type>...] " ++
      "[--all]",
    "  etchcss convert --content <dir> --classes <file> (--store <path> | --dry-run) " ++
      "[--config <path>] [--post-type <type>...] [--all]",
    "  etchcss validate [--fix] <file...>", "", "EXAMPLES:",
    "  etchcss scan -d export/content",
    "  etchcss count -d export/content -g export/global-classes.json",
    "  etchcss convert -d export/content -g export/global-classes.json --dry-run",
    "  etchcss convert -c etchcss.toml -d export/content -g export/global-classes.json " ++
      "-o styles.json",
    "  etchcss validate --fix custom.css", "",
    "Set ETCHCSS_LOG (e.g. ETCHCSS_LOG=debug) to control log output."]

/-- The settings under which a command runs: those of the file, with what the command line says
on top. -/
def settings (sources : Sources) (c : Config) : Config :=
  { c with
    postTypes := c.postTypes ++ sources.postTypes
    restrict := c.restrict && !sources.allClasses }

section

variable {m : Type → Type} [Monad m] [FileSystem m]

/-- A step that may fail, as a step of a command. -/
def attempt {α ε : Type} (wrap : ε → CommandError) (step : m (Except ε α)) :
    ExceptT CommandError m α :=
  ExceptT.mk do return (← step).mapError wrap

/-- The content and the session of a command. -/
def start (sources : Sources) : ExceptT CommandError m (ContentDirectory × Session) := do
  let c ← match sources.config with
    | some path => attempt .config (Config.load path)
    | none => pure {}
  let c := settings sources c
  let content ← attempt .content (ContentDirectory.load sources.content c.patterns)
  let session ← attempt .config c.session
  return (content, session)

def runScan (sources : Sources) : ExceptT CommandError m Report := do
  let (content, session) ← start sources
  let index := (session.references content.items).1
  return {
    output := index
    messages := ["scanned " ++ Text.ofNat content.filesLoaded ++ " files, found " ++
      Text.ofNat index.length ++ " referenced identifiers"] }

def runCount (sources : Sources) (classes : Text) : ExceptT CommandError m Report := do
  let (content, session) ← start sources
  let classes ← attempt .content (GlobalClass.load classes)
  let counts := (session.count classes content.items).1
  return { output := ["total: " ++ Text.ofNat counts.total,
    "to migrate: " ++ Text.ofNat counts.toMigrate] }

def convertedText (o : Session.Output) : Text :=
  "converted " ++ Text.ofNat o.converted ++ " classes, " ++ Text.ofNat o.excluded ++ " excluded, "

def dryReport (o : Session.Output) : Report :=
  { output := [(Json.object (styleFields o.styles o.styleMap o.inline)).wide 0]
    messages := [convertedText o ++ Text.ofNat o.styles.length ++ " styles"] }

/-- Save a conversion in the store at a path. -/
def save (path : Text) (o : Session.Output) : m (Except StoreError Store.Summary) := do
  match ← Store.openAt path with
  | .error e => return .error e
  | .ok store =>
    return (← store.importAll (Store.writeAt path) o.styles.values o.styleMap o.inline).1

def runConvert (sources : Sources) (classes : Text) (target : Target) :
    ExceptT CommandError m Report := do
  let (content, session) ← start sources
  let classes ← attempt .content (GlobalClass.load classes)
  let o := (session.convert classes content.items).1
  match target with
  | .report _ => return dryReport o
  | .store path =>
    let summary ← attempt .store (save path o)
    return { messages := [convertedText o ++ "stored " ++ Text.ofNat summary.merged ++
      " styles in " ++ path ++ " (version " ++ Text.ofNat summary.version.toNat ++ ")"] }

/-- Mend the stylesheet in a file and write it back if that changes it. -/
def mendFile (path css : Text) : ExceptT CommandError m Text := do
  let mended := mendSheet css
  if mended ≠ css then attempt (.writeSheet path) (FileSystem.write path mended)
  return mended

/-- Check the stylesheet in a file, mended first if that is asked for. -/
def checkFile (fix : Bool) (path : Text) : ExceptT CommandError m (List SheetFault) := do
  let css ← attempt (.readSheet path) (FileSystem.read path)
  let css ← if fix then mendFile path css else pure css
  return SheetFault.faults css

def verdict (path : Text) (faults : List SheetFault) : Text :=
  if faults.isEmpty then "ok " ++ path
  else "invalid " ++ path ++ ": " ++ Text.join ", " (faults.map SheetFault.message)

/-- Check files one after the other, up to the first that cannot be read or written. -/
def checkFiles (fix : Bool) : List Text → m (List (Text × List SheetFault) × Option CommandError)
  | [] => pure ([], none)
  | path :: paths => do
    match ← (checkFile fix path).run with
    | .error e => return ([], some e)
    | .ok faults =>
      let (checked, error) ← checkFiles fix paths
      return ((path, faults) :: checked, error)

def runValidate (files : List Text) (fix : Bool) : m Report := do
  let (checked, error) ← checkFiles fix files
  let failed := checked.countP fun (_, faults) => !faults.isEmpty
  let failure := if failed = 0 then none else some (.invalid failed files.length)
  return {
    output := checked.map fun (path, faults) => verdict path faults
    error := error <|> failure }

/-- Run a command. -/
def run : Command → m Report
  | .scan sources _ => do return .ofExcept (← (runScan sources).run)
  | .count sources classes => do return .ofExcept (← (runCount sources classes).run)
  | .convert sources classes target => do
    return .ofExcept (← (runConvert sources classes target).run)
  | .validate files fix => runValidate files fix
  | .help => pure { output := helpLines }

/-- Run the command that arguments stand for. -/
def runArgs (args : List Text) : m Report :=
  match ofArgs args with
  | .ok command => command.run
  | .error e => pure { error := some (.usage e) }

end

end Command

end Restyle
