import Restyle.Stylesheet.Rule

/-! # Nested CSS for a token

All rules of a stylesheet for one token are gathered into the body of one
nested rule: the token's own declarations, then nested rules, then conditional
blocks. Top-level conditional blocks are cut out of the text first; blocks
under the same condition are joined.
-/

namespace Restyle

open Text

/-- A top-level conditional block: its condition, the nested CSS inside it for a token, and where
it stands. -/
structure ConditionalBlock where
  condition : Text
  css : Text
  span : Span

namespace ConditionalBlock

def ofPiece? (token : Text) (p : Piece) : Option ConditionalBlock :=
  match p.node with
  | .declaration _ => none
  | .block selector body =>
    match AtRule.condition? selector with
    | none => none
    | some condition =>
      let rules := Rule.ofNodes token [] body
      if rules.isEmpty then none else some ⟨condition, Rule.render rules true, p.span⟩

/-- The top-level conditional blocks that hold rules for a token. -/
def extract (css token : Text) : List ConditionalBlock :=
  (Piece.ofText css).filterMap (ofPiece? token)

end ConditionalBlock

/-- The text without some stretches of it; the text begins at a given position. -/
def cutOut : Nat → List Span → Text → Text
  | _, [], t => t
  | position, s :: ss, t =>
    t.take (s.start - position) ++ cutOut s.stop ss (t.drop (s.stop - position))

/-- The nested CSS of a stylesheet for a token. -/
def nestedCss (css token : Text) : Text :=
  let blocks := ConditionalBlock.extract css token
  let rest := cutOut 0 (blocks.map (·.span)) css
  let plain := Rule.render (Rule.extract rest token) false
  let conditional := (Table.group (blocks.map fun b => (b.condition, b.css))).map fun (c, bodies) =>
    braced c (join "\n" bodies)
  trim (join "\n" ((if plain.isEmpty then [] else [plain]) ++ conditional))

end Restyle
