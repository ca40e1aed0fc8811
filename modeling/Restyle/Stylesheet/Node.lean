import Restyle.Stylesheet.Lexeme

/-! # Nodes of a stylesheet

A stylesheet is a list of declarations and blocks; the body of a block is such
a list again. Comments are dropped. Semicolons inside parentheses do not end a
declaration, braces always open or close a block. From the first block that
nothing closes the rest is left out, and a brace that closes nothing discards
what stands before it since the last node.
-/

namespace Restyle

inductive Node where
  | declaration (t : Text)
  | block (selector : Text) (body : List Node)

/-- A stretch of a text, from one character position up to another. -/
structure Span where
  start : Nat
  stop : Nat
  deriving DecidableEq, Repr

/-- A node and where it stands. -/
structure Piece where
  node : Node
  span : Span

namespace Piece

/-- A block whose body is being read, with the pieces before it, last first. -/
structure Frame where
  before : List Piece
  selector : Text
  start : Nat

/-- The state of reading: the open blocks, innermost first, the pieces and the text since the
last of them, both last first, the depth of open parentheses, where the text starts apart from
white space, and the position. -/
structure Reader where
  outer : List Frame := []
  pieces : List Piece := []
  text : Text := []
  depth : Nat := 0
  start : Option Nat := none
  position : Nat := 0

namespace Reader

/-- The pieces after the text since the last of them has become a declaration. -/
def flushed (r : Reader) : List Piece :=
  let t := Text.trim r.text.reverse
  if t.isEmpty then r.pieces
  else ⟨.declaration t, ⟨r.start.getD r.position, r.position⟩⟩ :: r.pieces

/-- Where the text since the last piece starts. -/
def opening (r : Reader) : Nat :=
  r.start.getD r.position

/-- Add characters to the text since the last piece. -/
def add (r : Reader) (t : Text) : Reader :=
  let start := match r.start, t with
    | none, c :: _ => if Text.isBlank c then none else some r.position
    | start, _ => start
  { r with text := t.reverse ++ r.text, start, position := r.position + t.length }

/-- Pass over a comment. -/
def pass (r : Reader) (t : Text) : Reader :=
  { r with start := some r.opening, position := r.position + t.length }

def closeDeclaration (r : Reader) : Reader :=
  { r with pieces := r.flushed, text := [], start := none, position := r.position + 1 }

def openBlock (r : Reader) : Reader :=
  { outer := ⟨r.pieces, Text.trim r.text.reverse, r.opening⟩ :: r.outer,
    position := r.position + 1 }

def closeBlock (r : Reader) : Reader :=
  match r.outer with
  | [] => { r with text := [], start := none, position := r.position + 1 }
  | f :: outer =>
    let body := (r.flushed.map (·.node)).reverse
    { outer, pieces := ⟨.block f.selector body, ⟨f.start, r.position + 1⟩⟩ :: f.before,
      position := r.position + 1 }

def step (r : Reader) : Lexeme → Reader
  | .quoted t _ => r.add t
  | .comment t _ => r.pass t
  | .plain c =>
    if c = '(' then { r.add [c] with depth := r.depth + 1 }
    else if c = ')' then { r.add [c] with depth := r.depth - 1 }
    else if c = '{' then r.openBlock
    else if c = '}' then r.closeBlock
    else if c = ';' ∧ r.depth = 0 then r.closeDeclaration
    else r.add [c]

/-- The pieces at the end of the text: all of them, or those before the outermost open block. -/
def finish (r : Reader) : List Piece :=
  match r.outer.getLast? with
  | none => r.flushed.reverse
  | some f => f.before.reverse

end Reader

def ofLexemes (ls : List Lexeme) : List Piece :=
  (ls.foldl Reader.step {}).finish

/-- The nodes of a stylesheet and where they stand. -/
def ofText (css : Text) : List Piece :=
  ofLexemes (Lexeme.scan css)

end Piece

/-- The nodes of a stylesheet. -/
def Node.ofText (css : Text) : List Node :=
  (Piece.ofText css).map (·.node)

end Restyle
