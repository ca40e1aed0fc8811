import Restyle.Json.Token

/-! # Quoted texts in TOML

A text stands between double quotes, where a backslash escapes, or between
single quotes, where nothing does. Between three quotes on either side it may go
over several lines. Lines end at a line feed here.
-/

namespace Restyle.Toml

open Text

def isSpace (c : Char) : Bool :=
  c == ' ' || c == '\t'

/-- Any character but a control character other than the tab. -/
def isPrintable (c : Char) : Bool :=
  c == '\t' || (0x20 ≤ c.toNat && c.toNat ≠ 0x7F)

def skipSpaces (t : Text) : Text :=
  t.dropWhile isSpace

/-- Write every line end as a line feed. -/
def lineFeeds : Text → Text
  | [] => []
  | '\r' :: '\n' :: t => '\n' :: lineFeeds t
  | c :: t => c :: lineFeeds t

/-- The character of a code point, unless it is a surrogate or too large. -/
def scalar? (code : Nat) : Option Char :=
  if (0xD800 ≤ code && code < 0xE000) || 0x110000 ≤ code then none else some (Char.ofNat code)

def unescape? : Char → Option Char
  | '/' => none
  | c => Json.Token.unescape? c

/-- The character that an escape behind a backslash stands for. -/
def escape? : Text → Option (Char × Text)
  | 'u' :: a :: b :: c :: d :: t => ((Json.Token.unit? a b c d).bind scalar?).map (·, t)
  | 'U' :: a :: b :: c :: d :: e :: f :: g :: h :: t => do
    let high ← Json.Token.unit? a b c d
    let low ← Json.Token.unit? e f g h
    return (← scalar? (high * 0x10000 + low), t)
  | c :: t => (unescape? c).map (·, t)
  | [] => none

/-- How a text is quoted: by which character, and whether as a block of lines. -/
structure Quotation where
  quote : Char
  block : Bool

namespace Quotation

/-- The quotation that a value opens. The line end behind the quotes of a block is no part of it. -/
def open? : Text → Option (Quotation × Text)
  | '"' :: '"' :: '"' :: '\n' :: t => some (⟨'"', true⟩, t)
  | '"' :: '"' :: '"' :: t => some (⟨'"', true⟩, t)
  | '\'' :: '\'' :: '\'' :: '\n' :: t => some (⟨'\'', true⟩, t)
  | '\'' :: '\'' :: '\'' :: t => some (⟨'\'', true⟩, t)
  | '"' :: t => some (⟨'"', false⟩, t)
  | '\'' :: t => some (⟨'\'', false⟩, t)
  | _ => none

/-- Close the quotation. Up to two quotes before those that close a block belong to it. -/
def close? (q : Quotation) (t : Text) : Option (Text × Text) :=
  if q.block then
    (t.dropStart? [q.quote, q.quote, q.quote]).map fun t =>
      let quotes := (t.takeWhile (· == q.quote)).take 2
      (quotes, t.drop quotes.length)
  else (t.dropStart? [q.quote]).map ([], ·)

def allows (q : Quotation) (c : Char) : Bool :=
  isPrintable c || (q.block && c == '\n')

/-- What the first piece of a quoted text stands for. In a block, a backslash at the end of a line
takes all blanks and lines behind it away. -/
def piece? (q : Quotation) : Text → Option (Text × Text)
  | [] => none
  | c :: t =>
    if c = '\\' ∧ q.quote = '"' then
      if q.block ∧ (skipSpaces t).head? = some '\n' then
        some ([], t.dropWhile fun c => isSpace c || c == '\n')
      else (escape? t).map fun (c, t) => ([c], t)
    else if q.allows c then some ([c], t)
    else none

/-- Read at most `fuel` pieces up to the closing quotes, given the characters so far, last first. -/
def restOf (q : Quotation) : Nat → Text → Text → Option (Text × Text)
  | 0, _, _ => none
  | fuel + 1, quoted, t =>
    match q.close? t with
    | some (quotes, t) => some (quoted.reverse ++ quotes, t)
    | none =>
      match q.piece? t with
      | some (piece, t) => restOf q fuel (piece.reverse ++ quoted) t
      | none => none

/-- The rest of a quoted text. -/
def rest? (q : Quotation) (t : Text) : Option (Text × Text) :=
  q.restOf (t.length + 1) [] t

end Quotation

end Restyle.Toml
