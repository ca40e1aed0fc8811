import Restyle.Digest.Md5
import Restyle.Table

/-! # Styles

A style is one selector with its nested CSS. Its id is made from the digest of
its selector, so that the same selector has the same id in every run.
-/

namespace Restyle

structure Style where
  id : Text
  kind : Text
  selector : Text
  collection : Text
  css : Text
  readonly : Bool
  deriving DecidableEq, Repr

/-- The style that a class of the source became. -/
structure StyleRef where
  id : Text
  selector : Text
  deriving DecidableEq, Repr

abbrev StyleSet := Table Style

abbrev StyleMap := Table StyleRef

namespace Style

def classKind : Text := "class"

def defaultCollection : Text := "default"

def ofSelector (id selector css : Text) : Style :=
  ⟨id, classKind, selector, defaultCollection, Text.trim css, false⟩

/-- Two pieces of CSS, one behind the other. -/
def joinCss (current incoming : Text) : Text :=
  let current := Text.trim current
  let incoming := Text.trim incoming
  if incoming.isEmpty then current
  else if current.isEmpty then incoming
  else current ++ "\n  " ++ incoming

/-- The first hexadecimal digits of the digest of a text. -/
def digest (t : Text) (digits : Nat) : Text :=
  (Md5.hex (String.ofList t).toUTF8.toList).take digits

def classId (selector : Text) : Text :=
  digest selector 7

/-- The id for an element id without its leading `#`. -/
def elementId (name : Text) : Text :=
  "id_" ++ digest ('#' :: name) 8

end Style

end Restyle
