import Restyle.Json.Basic

/-! # JSON tokens

A JSON text is a sequence of marks, quoted texts and words, which are maximal
runs of other characters: the three names and the numbers. Only space, tab,
line feed and carriage return may stand between tokens. A token may be well
formed and yet denote nothing: a number that is too large, or a quoted text
with half of a surrogate pair.
-/

namespace Restyle.Json

inductive Token where
  | openArray
  | closeArray
  | openObject
  | closeObject
  | comma
  | colon
  | null
  | bool (b : Bool)
  | number (n : Option Number)
  | string (t : Option Text)

namespace Token

def isSpace (c : Char) : Bool :=
  c == ' ' || c == '\t' || c == '\n' || c == '\r'

def mark? : Char → Option Token
  | '[' => some openArray
  | ']' => some closeArray
  | '{' => some openObject
  | '}' => some closeObject
  | ',' => some comma
  | ':' => some colon
  | _ => none

def ofWord? (word : Text) : Option Token :=
  if word = "null" then some null
  else if word = "true" then some (bool true)
  else if word = "false" then some (bool false)
  else (Number.ofWord? word).map number

def hexValue? (c : Char) : Option Nat :=
  if c.isDigit then some (c.toNat - '0'.toNat)
  else if 'a' ≤ c.toLower && c.toLower ≤ 'f' then some (c.toLower.toNat - 'a'.toNat + 10)
  else none

/-- The code unit of four hexadecimal digits. -/
def unit? (a b c d : Char) : Option Nat := do
  let a ← hexValue? a
  let b ← hexValue? b
  let c ← hexValue? c
  let d ← hexValue? d
  return ((a * 16 + b) * 16 + c) * 16 + d

def isLeading (unit : Nat) : Bool :=
  0xD800 ≤ unit && unit < 0xDC00

def isTrailing (unit : Nat) : Bool :=
  0xDC00 ≤ unit && unit < 0xE000

/-- The character of a surrogate pair. -/
def ofPair (leading trailing : Nat) : Char :=
  Char.ofNat (0x10000 + (leading - 0xD800) * 0x400 + (trailing - 0xDC00))

/-- A quoted text as far as it has been read, its characters last first. A leading code unit waits
for its trailing one; where either lacks the other, the text denotes nothing. -/
structure Quoted where
  chars : Text := []
  leading : Option Nat := none
  sound : Bool := true

namespace Quoted

/-- Give up waiting for a trailing code unit. -/
def settle (q : Quoted) : Quoted :=
  { q with leading := none, sound := q.sound && q.leading.isNone }

def push (q : Quoted) (c : Char) : Quoted :=
  { q.settle with chars := c :: q.chars }

def pushUnit (q : Quoted) (unit : Nat) : Quoted :=
  if isTrailing unit then
    match q.leading with
    | some leading => { q with chars := ofPair leading unit :: q.chars, leading := none }
    | none => { q with sound := false }
  else if isLeading unit then { q.settle with leading := some unit }
  else q.push (Char.ofNat unit)

def text? (q : Quoted) : Option Text :=
  if q.settle.sound then some q.chars.reverse else none

end Quoted

/-- The character that a letter behind a backslash stands for. -/
def unescape? : Char → Option Char
  | '"' => some '"'
  | '\\' => some '\\'
  | '/' => some '/'
  | 'b' => some '\x08'
  | 'f' => some '\x0C'
  | 'n' => some '\n'
  | 'r' => some '\r'
  | 't' => some '\t'
  | _ => none

mutual

/-- The tokens of a text, read between tokens. -/
def scan : Text → Option (List Token)
  | [] => some []
  | c :: t =>
    if isSpace c then scan t
    else if c = '"' then scanQuoted {} t
    else match mark? c with
      | some m => (scan t).map (m :: ·)
      | none => scanWord [c] t

/-- The tokens of a text, read inside a word whose characters so far are given last first. -/
def scanWord (word : Text) : Text → Option (List Token)
  | [] => (ofWord? word.reverse).map ([·])
  | c :: t =>
    if isSpace c then do
      let w ← ofWord? word.reverse
      return w :: (← scan t)
    else if c = '"' then do
      let w ← ofWord? word.reverse
      return w :: (← scanQuoted {} t)
    else match mark? c with
      | some m => do
        let w ← ofWord? word.reverse
        return w :: m :: (← scan t)
      | none => scanWord (c :: word) t

/-- The tokens of a text, read inside a quoted text. -/
def scanQuoted (q : Quoted) : Text → Option (List Token)
  | [] => none
  | '"' :: t => (scan t).map (string q.text? :: ·)
  | '\\' :: 'u' :: a :: b :: c :: d :: t =>
    match unit? a b c d with
    | some unit => scanQuoted (q.pushUnit unit) t
    | none => none
  | '\\' :: c :: t =>
    match unescape? c with
    | some c => scanQuoted (q.push c) t
    | none => none
  | c :: t => if c.toNat < 0x20 then none else scanQuoted (q.push c) t

end

end Token

end Restyle.Json
