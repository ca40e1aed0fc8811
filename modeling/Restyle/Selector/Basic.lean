import Restyle.Text.Substitution

/-! # Selectors

A selector list is split at commas outside parentheses and brackets. A token,
as `.card` or `#hero`, occurs in a selector where no name character follows
it, so `.card` does not occur in `.card-title`.
-/

namespace Restyle.Selector

open Text

/-- A part of a list, if it is not blank. -/
def part (t : Text) : List Text :=
  let t := trim t
  if t.isEmpty then [] else [t]

/-- Split inside `depth` open brackets; the part so far is given last character first. -/
def splitFrom : Nat → Text → Text → List Text
  | _, current, [] => part current.reverse
  | depth, current, c :: t =>
    if c = '(' ∨ c = '[' then splitFrom (depth + 1) (c :: current) t
    else if c = ')' ∨ c = ']' then splitFrom (depth - 1) (c :: current) t
    else if c = ',' ∧ depth = 0 then part current.reverse ++ splitFrom 0 [] t
    else splitFrom depth (c :: current) t

/-- The selectors of a comma list, trimmed and without blank ones. -/
def splitList (t : Text) : List Text :=
  splitFrom 0 [] t

/-- Whether a name goes on at the head of a text. -/
def nameGoesOn : Text → Bool
  | [] => false
  | c :: _ => isNameChar c

/-- Recognise a token; a longer name that begins with it is passed over as it is. -/
def token (token new : Text) : Recogniser Text := fun _ t =>
  if token.isEmpty then none
  else (dropStart? t token).map fun rest => (if nameGoesOn rest then token else new, rest)

/-- Replace every occurrence of a token. -/
def replaceToken (t name new : Text) : Text :=
  substitute (token name new) t

/-- The text before the first occurrence of a token and the text behind it; the first `skip`
characters are known to begin no occurrence. -/
def cutTokenFrom? (token : Text) : Nat → Text → Option (Text × Text)
  | _, [] => none
  | skip + 1, c :: t => (cutTokenFrom? token skip t).map fun (l, r) => (c :: l, r)
  | 0, c :: t =>
    match dropStart? (c :: t) token with
    | none => (cutTokenFrom? token 0 t).map fun (l, r) => (c :: l, r)
    | some rest =>
      if nameGoesOn rest then
        (cutTokenFrom? token (token.length - 1) t).map fun (l, r) => (c :: l, r)
      else some ([], rest)

def cutToken? (t token : Text) : Option (Text × Text) :=
  if token.isEmpty then none else cutTokenFrom? token 0 t

/-- The offset in bytes of the first occurrence of a token that begins at an offset or behind it. -/
def findToken? (t token : Text) (start : Nat) : Option Nat :=
  (t.dropBytes? start).bind fun rest =>
    (cutToken? rest token).map fun (before, _) => start + before.byteSize

end Restyle.Selector
