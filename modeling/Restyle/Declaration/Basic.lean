import Restyle.Setting

/-! # Declarations

A declaration gives a property a value. Settings that hold a plain text become
declarations one by one.
-/

namespace Restyle

structure Declaration where
  property : Text
  value : Text
  deriving DecidableEq, Repr

namespace Declaration

def text (d : Declaration) : Text :=
  d.property ++ ": " ++ d.value ++ ";"

/-- A declaration with a value that may be missing. -/
def ofValue (property : Text) (value : Option Text) : List Declaration :=
  (value.map (⟨property, ·⟩)).toList

/-- Declarations for settings that are neither blank nor `0`, given as keys and properties. -/
def ofTexts (s : Settings) (entries : Table Text) : List Declaration :=
  entries.flatMap fun (key, property) => ofValue property (s.text? key)

/-- Declarations for settings that are not blank. -/
def ofPresent (s : Settings) (entries : Table Text) : List Declaration :=
  entries.flatMap fun (key, property) => ofValue property (s.present? key)

end Declaration

end Restyle
