import Restyle.Json.Basic

/-! # Writing JSON

The compact form has no white space. The wide form puts every item on a line
of its own, two spaces further in than its container; an empty container stays
on one line.
-/

namespace Restyle.Json

def hexDigit (n : Nat) : Char :=
  (Nat.digitChar n)

/-- A character inside a quoted text. -/
def escape (c : Char) : Text :=
  match c with
  | '"' => "\\\""
  | '\\' => "\\\\"
  | '\n' => "\\n"
  | '\r' => "\\r"
  | '\t' => "\\t"
  | '\x08' => "\\b"
  | '\x0C' => "\\f"
  | c =>
    if c.toNat < 0x20 then "\\u00" ++ [hexDigit (c.toNat / 16), hexDigit (c.toNat % 16)] else [c]

def quote (t : Text) : Text :=
  '"' :: t.flatMap escape ++ "\""

mutual

def compact : Json → Text
  | null => "null"
  | bool true => "true"
  | bool false => "false"
  | number n => n.toText
  | string t => quote t
  | array items => '[' :: Text.join "," (compactItems items) ++ [']']
  | object entries => '{' :: Text.join "," (compactEntries entries) ++ ['}']

def compactItems : List Json → List Text
  | [] => []
  | j :: items => j.compact :: compactItems items

def compactEntries : List (Text × Json) → List Text
  | [] => []
  | (k, j) :: entries => (quote k ++ ":" ++ j.compact) :: compactEntries entries

end

def margin (level : Nat) : Text :=
  List.replicate (2 * level) ' '

/-- Lines between brackets, set in by one level more than the brackets. -/
def block (opening closing : Char) (level : Nat) (lines : List Text) : Text :=
  if lines.isEmpty then [opening, closing]
  else
    let lines := lines.map (margin (level + 1) ++ ·)
    opening :: '\n' :: Text.join ",\n" lines ++ '\n' :: margin level ++ [closing]

mutual

def wide (level : Nat) : Json → Text
  | array items => block '[' ']' level (wideItems (level + 1) items)
  | object entries => block '{' '}' level (wideEntries (level + 1) entries)
  | j => j.compact

def wideItems (level : Nat) : List Json → List Text
  | [] => []
  | j :: items => j.wide level :: wideItems level items

def wideEntries (level : Nat) : List (Text × Json) → List Text
  | [] => []
  | (k, j) :: entries => (quote k ++ ": " ++ j.wide level) :: wideEntries level entries

end

end Restyle.Json
