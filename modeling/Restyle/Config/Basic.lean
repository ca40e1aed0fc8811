import Restyle.Files.System
import Restyle.Json.Record
import Restyle.Session.Basic
import Restyle.Toml.Reader

/-! # Settings files

A settings file says which content counts, how wide the breakpoints are, and
where the stylesheet of the utility framework lies. Everything in it may be
missing, and names it does not know are passed over.
-/

namespace Restyle

/-- The width of a breakpoint, as settings give it. -/
structure ConfiguredWidth where
  key : Text
  width : Nat
  base : Bool
  deriving DecidableEq, Repr

structure Config where
  postTypes : List Text := []
  /-- Convert referenced classes only. -/
  restrict : Bool := true
  /-- Globs for the content files. -/
  patterns : List Text := []
  widths : List ConfiguredWidth := []
  /-- A JSON file of override entries, which come before the widths given here. -/
  widthFile : Option Text := none
  stylesheet : Option Text := none
  deriving DecidableEq, Repr

inductive ConfigError where
  | read (path : Text) (cause : FileError)
  | malformed (path : Text)
  | widths (path : Text) (cause : FileError)
  deriving DecidableEq, Repr

def ConfigError.message : ConfigError → Text
  | read path cause => "failed to read config " ++ path ++ ": " ++ cause.message
  | malformed path => "failed to parse config " ++ path
  | widths path cause => "failed to read breakpoints " ++ path ++ ": " ++ cause.message

open Json

/-- The fields of a table of settings. An array counts as its values in order, and values beyond
the names are passed over. -/
def Config.fields? (names : List Text) : Json → Option (Table Json)
  | .array items => some (names.zip items)
  | j => j.record? names

namespace ConfiguredWidth

/-- A width has at most 32 bits. -/
def width? (j : Json) : Option Nat :=
  j.nat?.filter (· ≤ Breakpoint.maxWidth)

def ofJson? (j : Json) : Option ConfiguredWidth := do
  let fields ← Config.fields? ["key", "width", "base"] j
  let key ← field? fields "key" text?
  let width ← field? fields "width" width?
  let base ← fieldOr? fields "base" false bool?
  return ⟨key, width, base⟩

/-- The override entry of a width. -/
def toJson (w : ConfiguredWidth) : Json :=
  .object [("key", .string w.key), ("width", .number (.integer w.width)), ("base", .bool w.base)]

end ConfiguredWidth

namespace Config

/-- The items of an array, each read. -/
def list? {α : Type} (read : Json → Option α) : Json → Option (List α)
  | .array items => items.mapM read
  | _ => none

def ofJson? (j : Json) : Option Config := do
  let sections ← j.record? ["content", "breakpoints", "utility"]
  let content ← fieldOr? sections "content" []
    (fields? ["post_types", "restrict_to_referenced", "patterns"])
  let postTypes ← fieldOr? content "post_types" [] (list? text?)
  let restrict ← fieldOr? content "restrict_to_referenced" true bool?
  let patterns ← fieldOr? content "patterns" [] (list? text?)
  let breakpoints ← fieldOr? sections "breakpoints" [] (fields? ["overrides", "file"])
  let widths ← fieldOr? breakpoints "overrides" [] (list? ConfiguredWidth.ofJson?)
  let widthFile ← fieldOr? breakpoints "file" none (·.text?.map some)
  let utility ← fieldOr? sections "utility" [] (fields? ["stylesheet"])
  let stylesheet ← fieldOr? utility "stylesheet" none (·.text?.map some)
  return { postTypes, restrict, patterns, widths, widthFile, stylesheet }

def ofText? (t : Text) : Option Config :=
  (Toml.ofText? t).bind ofJson?

section

variable {m : Type → Type} [Monad m] [FileSystem m]

/-- Load a settings file. -/
def load (path : Text) : m (Except ConfigError Config) := do
  match ← FileSystem.read path with
  | .ok text => return (ofText? text).elim (.error (.malformed path)) .ok
  | .error cause => return .error (.read path cause)

/-- The override entries of the file of widths, if there is one. -/
def widthEntries : Option Text → m (Except ConfigError (List Json))
  | none => pure (.ok [])
  | some path => do
    match ← FileSystem.read path with
    | .ok text => return .ok (Override.entriesOfText text)
    | .error cause => return .error (.widths path cause)

/-- The breakpoints under the settings. -/
def resolver (c : Config) : m (Except ConfigError Resolver) := do
  return (← widthEntries c.widthFile).map fun entries =>
    .ofOverrides (entries ++ c.widths.map ConfiguredWidth.toJson)

/-- The utility classes of the framework's stylesheet, none if it cannot be read. -/
def utility (c : Config) : m Utility := do
  match c.stylesheet with
  | none => return {}
  | some path => return .ofStylesheet ((← FileSystem.read path).toOption.getD [])

/-- A conversion session under the settings. -/
def session (c : Config) : m (Except ConfigError Session) := do
  match ← c.resolver with
  | .error e => return .error e
  | .ok resolver =>
    let utility ← c.utility
    return .ok { resolver, utility, options := ⟨c.postTypes, c.restrict⟩ }

end

end Config

end Restyle
