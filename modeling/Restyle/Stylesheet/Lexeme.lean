import Restyle.Text.Basic

/-! # Lexemes of a stylesheet

A stylesheet is a sequence of plain characters, quoted texts, in which a
backslash shields the next character, and comments. A quoted text or comment
that nothing closes takes up the rest.
-/

namespace Restyle

inductive Lexeme where
  | plain (c : Char)
  | quoted (t : Text) (closed : Bool)
  | comment (t : Text) (closed : Bool)
  deriving DecidableEq, Repr

namespace Lexeme

/-- The text of a lexeme, quotes and comment marks included. -/
def text : Lexeme → Text
  | plain c => [c]
  | quoted t _ => t
  | comment t _ => t

mutual

def scan : Text → List Lexeme
  | [] => []
  | '/' :: '*' :: t => scanComment ['*', '/'] t
  | c :: t => if c = '"' ∨ c = '\'' then scanQuoted c [c] t else plain c :: scan t

/-- Scan inside a comment whose characters so far are given last first. -/
def scanComment (seen : Text) : Text → List Lexeme
  | [] => [comment seen.reverse false]
  | '*' :: '/' :: t => comment ('/' :: '*' :: seen).reverse true :: scan t
  | c :: t => scanComment (c :: seen) t

/-- Scan inside a quoted text whose characters so far are given last first. -/
def scanQuoted (quote : Char) (seen : Text) : Text → List Lexeme
  | [] => [quoted seen.reverse false]
  | '\\' :: c :: t => scanQuoted quote (c :: '\\' :: seen) t
  | c :: t =>
    if c = quote then quoted (c :: seen).reverse true :: scan t else scanQuoted quote (c :: seen) t

end

end Lexeme

end Restyle
