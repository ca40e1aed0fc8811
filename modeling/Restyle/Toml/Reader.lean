import Restyle.Toml.Moment
import Restyle.Toml.Node
import Restyle.Toml.Quoted

/-! # Reading TOML

Settings are written in TOML: tables, arrays of tables, dotted keys, inline
tables, arrays, quoted texts, integers of 64 bits, floating point numbers, truth
values, dates and times. A text is read as the JSON value of its tables; no
setting is a date or a time, so that one is read as an object with names that no
setting has. Keys have at most 79 parts, and as many arrays and inline tables may
lie inside each other.
-/

namespace Restyle.Toml

open Text

/-- The greatest number of parts of a key, and of containers inside each other. -/
def depthLimit : Nat := 79

/-- Skip spaces, lines and comments. -/
def skipLines (inComment : Bool) : Text → Option Text
  | [] => some []
  | c :: t =>
    if c = '\n' then skipLines false t
    else if inComment then if isPrintable c then skipLines true t else none
    else if isSpace c then skipLines false t
    else if c = '#' then skipLines true t
    else some (c :: t)

/-- Skip the rest of a line, which may hold a comment only. -/
def skipLine (inComment : Bool) : Text → Option Text
  | [] => some []
  | c :: t =>
    if c = '\n' then some t
    else if inComment then if isPrintable c then skipLine true t else none
    else if isSpace c then skipLine false t
    else if c = '#' then skipLine true t
    else none

/-- One part of a key. -/
def name? (t : Text) : Option (Text × Text) :=
  match t with
  | '"' :: t => Quotation.rest? ⟨'"', false⟩ t
  | '\'' :: t => Quotation.rest? ⟨'\'', false⟩ t
  | t =>
    let name := t.takeWhile isNameChar
    if name.isEmpty then none else some (name, t.dropWhile isNameChar)

/-- A key of at most `room` parts with dots between them. -/
def keyOf : Nat → Text → Option (List Text × Text)
  | 0, _ => none
  | room + 1, t => do
    let (name, t) ← name? (skipSpaces t)
    match skipSpaces t with
    | '.' :: t =>
      let (names, t) ← keyOf room t
      return (name :: names, t)
    | t => return ([name], t)

def key? (t : Text) : Option (List Text × Text) :=
  keyOf depthLimit t

/-- Digits in which single underscores may stand between two digits. -/
def digits? (isDigit : Char → Bool) (t : Text) : Option Text :=
  let groups := t.split (· == '_')
  if groups.all fun g => !g.isEmpty && g.all isDigit then some groups.flatten else none

def ofBase (base : Nat) (digits : Text) : Nat :=
  digits.foldl (fun n c => base * n + (Json.Token.hexValue? c).getD 0) 0

def isHexDigit (c : Char) : Bool :=
  (Json.Token.hexValue? c).isSome

/-- An unsigned integer in base 16, 8 or 2. -/
def based? : Text → Option Nat
  | '0' :: 'x' :: t => (digits? isHexDigit t).map (ofBase 16)
  | '0' :: 'o' :: t => (digits? (fun c => '0' ≤ c && c ≤ '7') t).map (ofBase 8)
  | '0' :: 'b' :: t => (digits? (fun c => c == '0' || c == '1') t).map (ofBase 2)
  | _ => none

/-- Decimal digits without a needless zero before them. -/
def whole? (t : Text) : Option Text :=
  (digits? Char.isDigit t).filter fun digits => digits.head? ≠ some '0' || digits.length = 1

def integer (n : Int) : Option Json :=
  if -0x8000000000000000 ≤ n && n < 0x8000000000000000 then some (.number (.integer n)) else none

/-- A number with a fraction, an exponent or both. One above all finite numbers is refused. -/
def float? (negative : Bool) (t : Text) : Option Json := do
  let (mantissa, exponent) := (cut? (fun c => c.toLower == 'e') t).getD (t, "0")
  let (whole, fraction) := (cut? (· == '.') mantissa).getD (mantissa, "0")
  let whole ← whole? whole
  let fraction ← digits? Char.isDigit fraction
  let (negativeExponent, power) := Decimal.spanSign exponent
  let power ← digits? Char.isDigit power
  let sign : Text := if negativeExponent then "-" else "+"
  let d ← Decimal.ofUnsigned? negative (whole ++ "." ++ fraction ++ "e" ++ sign ++ power)
  if d.toBinary64 = .infinite false then none else some (.number (.real d.toBinary64))

/-- A number without its sign. -/
def unsigned? (negative : Bool) (t : Text) : Option Json :=
  match whole? t with
  | some digits =>
    integer (if negative then -(Decimal.ofDigits digits : Int) else Decimal.ofDigits digits)
  | none =>
    if t = "inf" then some (.number (.real (.infinite negative)))
    else if t = "nan" then some (.number (.real .nan))
    else float? negative t

/-- A truth value, a date or time, or a number. -/
def word? (t : Text) : Option Json :=
  if t = "true" then some (.bool true)
  else if t = "false" then some (.bool false)
  else if Moment.isMoment t then some (.object [("moment", .string t)])
  else match based? t with
    | some n => integer n
    | none =>
      let (negative, t) := Decimal.spanSign t
      unsigned? negative t

def isWordChar (c : Char) : Bool :=
  isNameChar c || c == '+' || c == '.' || c == ':'

/-- The first word and the rest. One space may stand between a date and a time. -/
def spanWord (t : Text) : Text × Text :=
  let (word, rest) := t.span isWordChar
  match rest with
  | ' ' :: c :: t =>
    if c.isDigit && Moment.date? word == some [] then
      let (time, rest) := (c :: t).span isWordChar
      (word ++ " " ++ time, rest)
    else (word, rest)
  | _ => (word, rest)

mutual

/-- A value with at most `room` containers inside each other, in at most `fuel` steps of nesting
and repetition. -/
def valueOf (room : Nat) : Nat → Text → Option (Json × Text)
  | 0, _ => none
  | fuel + 1, t =>
    match t with
    | '[' :: t =>
      if room = 0 then none
      else (itemsOf (room - 1) fuel t).map fun (items, t) => (.array items, t)
    | '{' :: t =>
      if room = 0 then none
      else match skipSpaces t with
        | '}' :: t => some (.object [], t)
        | t =>
          (pairsOf (room - 1) fuel [] t).map fun (entries, t) =>
            (.object (entriesToJson entries), t)
    | t =>
      match Quotation.open? t with
      | some (q, t) => (q.rest? t).map fun (text, t) => (.string text, t)
      | none =>
        let (word, t) := spanWord t
        (word? word).map (·, t)

/-- The rest of an array, which may go over several lines. -/
def itemsOf (room : Nat) : Nat → Text → Option (List Json × Text)
  | 0, _ => none
  | fuel + 1, t => do
    match ← skipLines false t with
    | ']' :: t => return ([], t)
    | t =>
      let (j, t) ← valueOf room fuel t
      match ← skipLines false t with
      | ',' :: t =>
        let (items, t) ← itemsOf room fuel t
        return (j :: items, t)
      | ']' :: t => return ([j], t)
      | _ => none

/-- The rest of an inline table that is not empty, on one line. -/
def pairsOf (room : Nat) : Nat → Entries → Text → Option (Entries × Text)
  | 0, _, _ => none
  | fuel + 1, entries, t => do
    let (key, t) ← key? t
    match t with
    | '=' :: t =>
      let (j, t) ← valueOf room fuel (skipSpaces t)
      let entries ← entries.add key j .header
      match skipSpaces t with
      | ',' :: t => pairsOf room fuel entries t
      | '}' :: t => return (entries, t)
      | _ => none
    | _ => none

end

def value? (t : Text) : Option (Json × Text) :=
  valueOf depthLimit (t.length + 1) t

/-- The tables read so far, and the header of the one that is open. -/
structure Draft where
  entries : Entries := []
  header : List Text := []

/-- Read one line that is not blank: a header, or a key with its value. -/
def line? (d : Draft) (t : Text) : Option (Draft × Text) :=
  match t with
  | '[' :: '[' :: t => do
    let (key, t) ← key? t
    let t ← skipLine false (← t.dropStart? "]]")
    return (⟨← d.entries.openItem key, key⟩, t)
  | '[' :: t => do
    let (key, t) ← key? t
    let t ← skipLine false (← t.dropStart? "]")
    return (⟨← d.entries.openTable key, key⟩, t)
  | t => do
    let (key, t) ← key? t
    let (j, t) ← value? (skipSpaces (← t.dropStart? "="))
    let t ← skipLine false t
    return ({ d with entries := ← d.entries.addUnder d.header key j }, t)

/-- Read at most `fuel` lines that are not blank. -/
def linesOf : Nat → Draft → Text → Option Entries
  | 0, _, _ => none
  | fuel + 1, d, t => do
    match ← skipLines false t with
    | [] => return d.entries
    | t =>
      let (d, t) ← line? d t
      linesOf fuel d t

/-- The tables of a text. -/
def ofText? (t : Text) : Option Json :=
  let t := lineFeeds ((t.dropStart? "\uFEFF").getD t)
  (linesOf (t.length + 1) {} t).map fun entries => .object (entriesToJson entries)

end Restyle.Toml
