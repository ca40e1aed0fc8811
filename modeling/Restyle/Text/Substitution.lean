import Restyle.Text.Basic

/-! # Substitution in a text

A recogniser sees the character before a text, if any, and the text. Where it
recognises a beginning it answers with a result and the rest of the text.
Substitution goes from left to right, never looks into what it has written, and
never recognises a character twice.
-/

namespace Restyle.Text

abbrev Recogniser (α : Type) := Option Char → Text → Option (α × Text)

/-- Substitute in a text whose first `skip` characters are already recognised. -/
def substituteFrom (r : Recogniser Text) : Nat → Option Char → Text → Text
  | _, _, [] => []
  | skip + 1, _, c :: t => substituteFrom r skip (some c) t
  | 0, before, c :: t =>
    match r before (c :: t) with
    | some (out, rest) => out ++ substituteFrom r (t.length - rest.length) (some c) t
    | none => c :: substituteFrom r 0 (some c) t

/-- Replace every recognised part by its result. -/
def substitute (r : Recogniser Text) (t : Text) : Text :=
  substituteFrom r 0 none t

def findFrom? {α : Type} (r : Recogniser α) : Option Char → Text → Option α
  | _, [] => none
  | before, c :: t =>
    match r before (c :: t) with
    | some (a, _) => some a
    | none => findFrom? r (some c) t

/-- The result for the first recognised part. -/
def find? {α : Type} (r : Recogniser α) (t : Text) : Option α :=
  findFrom? r none t

def findAllFrom {α : Type} (r : Recogniser α) : Nat → Option Char → Text → List α
  | _, _, [] => []
  | skip + 1, _, c :: t => findAllFrom r skip (some c) t
  | 0, before, c :: t =>
    match r before (c :: t) with
    | some (a, rest) => a :: findAllFrom r (t.length - rest.length) (some c) t
    | none => findAllFrom r 0 (some c) t

/-- The results for all parts that a substitution would replace. -/
def findAll {α : Type} (r : Recogniser α) (t : Text) : List α :=
  findAllFrom r 0 none t

/-- Recognise one fixed text. -/
def literal (old new : Text) : Recogniser Text :=
  fun _ t => (dropStart? t old).map (new, ·)

/-- Replace every occurrence of a non-empty text, from left to right. -/
def replace (t old new : Text) : Text :=
  substitute (literal old new) t

end Restyle.Text
