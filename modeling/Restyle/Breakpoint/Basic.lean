import Restyle.Setting
import Restyle.Breakpoint.Condition

/-! # Breakpoints

Five breakpoints are built in. Overrides change their widths or add new ones.
The table of breakpoints starts with the desktop, which holds from its width
upwards; the others hold up to theirs and come in order of falling width.
-/

namespace Restyle

/-- From which side a width bounds a breakpoint. -/
inductive Side where
  | least
  | most
  deriving DecidableEq, Repr

structure Breakpoint where
  key : Text
  side : Side
  width : Nat
  deriving DecidableEq, Repr

namespace Breakpoint

def desktop : Text := "desktop"

/-- Widths end at the largest number of 32 bits. -/
def maxWidth : Nat := 0xFFFFFFFF

def builtin : Table Breakpoint :=
  [⟨desktop, .least, 1200⟩, ⟨"tablet_landscape", .most, 1199⟩, ⟨"tablet_portrait", .most, 991⟩,
    ⟨"mobile_landscape", .most, 767⟩, ⟨"mobile_portrait", .most, 478⟩].map fun b => (b.key, b)

/-- Keys are in lower case and have only ASCII letters and digits, `_` and `-`. -/
def cleanKey (t : Text) : Text :=
  t.lower.filter Text.isNameChar

/-- The media condition, in range form or with the older feature names. -/
def condition (b : Breakpoint) (range : Bool) : Text :=
  let width := Text.ofNat b.width
  match b.side, range with
  | .least, true => Condition.comparison "width" ">=" width
  | .most, true => Condition.comparison "width" "<=" width
  | .least, false => "(min-width: " ++ width ++ "px)"
  | .most, false => "(max-width: " ++ width ++ "px)"

end Breakpoint

end Restyle
