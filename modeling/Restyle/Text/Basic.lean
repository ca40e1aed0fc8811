/-! # Texts

A text is the list of its characters. This module holds trimming, splitting,
joining and searching; lines end as in a text file, at a line feed that a
carriage return may precede.
-/

namespace Restyle

abbrev Text := List Char

instance : Coe String Text := ⟨String.toList⟩

/-- Membership of a code point in a sorted table of closed ranges. -/
def inRanges (ranges : List (Nat × Nat)) (c : Char) : Bool :=
  ranges.any fun r => r.1 ≤ c.toNat && c.toNat ≤ r.2

namespace Text

/-- The Unicode white space characters. -/
def blankRanges : List (Nat × Nat) :=
  [(0x9, 0xD), (0x20, 0x20), (0x85, 0x85), (0xA0, 0xA0), (0x1680, 0x1680), (0x2000, 0x200A),
    (0x2028, 0x2029), (0x202F, 0x202F), (0x205F, 0x205F), (0x3000, 0x3000)]

def isBlank (c : Char) : Bool :=
  inRanges blankRanges c

/-- The characters of names: ASCII letters and digits, `_` and `-`. -/
def isNameChar (c : Char) : Bool :=
  c.isAlphanum || c == '_' || c == '-'

/-- Lower case for the ASCII letters. -/
def lower (t : Text) : Text :=
  t.map Char.toLower

def trimStart (t : Text) : Text :=
  t.dropWhile isBlank

def dropEndWhile (p : Char → Bool) (t : Text) : Text :=
  (t.reverse.dropWhile p).reverse

def trimEnd (t : Text) : Text :=
  t.dropEndWhile isBlank

def trim (t : Text) : Text :=
  t.trimStart.trimEnd

/-- The text before the first character with the property, and the text behind it. -/
def cut? (p : Char → Bool) : Text → Option (Text × Text)
  | [] => none
  | c :: t => if p c then some ([], t) else (cut? p t).map fun (l, r) => (c :: l, r)

/-- The text before the last character with the property, and the text behind it. -/
def cutLast? (p : Char → Bool) (t : Text) : Option (Text × Text) :=
  (cut? p t.reverse).map fun (r, l) => (l.reverse, r.reverse)

/-- The pieces between the characters with the property, always at least one. -/
def split (p : Char → Bool) : Text → List Text
  | [] => [[]]
  | c :: t =>
    if p c then [] :: split p t
    else match split p t with
      | [] => [[c]]
      | w :: ws => (c :: w) :: ws

def words (t : Text) : List Text :=
  (t.split isBlank).filter (!·.isEmpty)

/-- The line without the carriage return before its end. -/
def dropReturn (line : Text) : Text :=
  if line.getLast? = some '\r' then line.dropLast else line

/-- The lines of a text; a line that no line feed ends keeps its carriage return. -/
def lines (t : Text) : List Text :=
  let pieces := t.split (· == '\n')
  pieces.dropLast.map dropReturn ++ (pieces.getLast?.filter (!·.isEmpty)).toList

/-- Write every run of characters with the property as one character. -/
def squeeze (p : Char → Bool) (single : Char) : Bool → Text → Text
  | _, [] => []
  | inRun, c :: t =>
    if p c then (if inRun then [] else [single]) ++ squeeze p single true t
    else c :: squeeze p single false t

/-- Write every run of semicolons as one. -/
def squeezeSemicolons (t : Text) : Text :=
  squeeze (· == ';') ';' false t

/-- Write every run of white space as one space. -/
def squeezeBlanks (t : Text) : Text :=
  squeeze isBlank ' ' false t

def join (separator : Text) (parts : List Text) : Text :=
  separator.intercalate parts

def startsWith (t start : Text) : Bool :=
  start.isPrefixOf t

def contains (t part : Text) : Bool :=
  match t with
  | [] => part.isEmpty
  | c :: t => startsWith (c :: t) part || contains t part

/-- The rest of a text behind a given start. -/
def dropStart? : Text → Text → Option Text
  | t, [] => some t
  | [], _ :: _ => none
  | b :: t, a :: start => if a = b then dropStart? t start else none

/-- The number of bytes of a text in UTF-8. -/
def byteSize (t : Text) : Nat :=
  t.foldl (fun n c => n + c.utf8Size) 0

/-- The text behind its first bytes, if they end between two characters. -/
def dropBytes? : Nat → Text → Option Text
  | 0, t => some t
  | _ + 1, [] => none
  | n + 1, c :: t => if c.utf8Size ≤ n + 1 then dropBytes? (n + 1 - c.utf8Size) t else none

/-- The decimal digits of a number. -/
def ofNat (n : Nat) : Text :=
  (Nat.repr n).toList

/-- Order by code points. -/
def le (s t : Text) : Bool :=
  match s, t with
  | [], _ => true
  | _ :: _, [] => false
  | a :: s, b :: t => a.val < b.val || (a == b && le s t)

end Text

end Restyle
