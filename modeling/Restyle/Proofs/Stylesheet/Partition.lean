import Mathlib.Data.List.Perm.Basic
import Restyle.Proofs.Stylesheet.Location
import Restyle.Proofs.Stylesheet.Nested
import Restyle.Proofs.Stylesheet.Sieving

/-! # Every rule once

The nested CSS for a token is made of two parts: the rules in the conditional
blocks, and the rules of what is left of the stylesheet when these blocks have
been cut out. Together they are the rules of the stylesheet for the token.
-/

namespace Restyle

open Text

namespace Rule

def under (condition : Text) (r : Rule) : Rule :=
  { r with conditions := condition :: r.conditions }

mutual

theorem ofNode_cons (token condition : Text) (conditions : List Text) : ∀ n : Node,
    ofNode token (condition :: conditions) n = (ofNode token conditions n).map (under condition)
  | .declaration _ => rfl
  | .block selector body => by
    rw [ofNode, ofNode]
    split_ifs with hat
    · cases AtRule.condition? selector with
      | none => rfl
      | some c => exact ofNodes_cons token condition (conditions ++ [c]) body
    · unfold ofBlock
      dsimp only
      split_ifs <;> rfl

theorem ofNodes_cons (token condition : Text) (conditions : List Text) : ∀ ns : List Node,
    ofNodes token (condition :: conditions) ns =
      (ofNodes token conditions ns).map (under condition)
  | [] => rfl
  | n :: ns => by
    rw [ofNodes, ofNodes, ofNode_cons token condition conditions n,
      ofNodes_cons token condition conditions ns, List.map_append]

end

theorem ofNodes_eq_flatMap (token : Text) (conditions : List Text) (ns : List Node) :
    ofNodes token conditions ns = ns.flatMap (ofNode token conditions) := by
  induction ns with
  | nil => rfl
  | cons n ns ih => rw [ofNodes, List.flatMap_cons, ih]

end Rule

namespace ConditionalBlock

/-- The rules that stand in the braces of a block, under its condition. -/
def rules (css token : Text) (b : ConditionalBlock) : List Rule :=
  (Rule.extract (blockBody (b.span.slice css)) token).map (Rule.under b.condition)

variable {css token : Text} {b : ConditionalBlock} {p : Piece} {ps : List Piece}

end ConditionalBlock

end Restyle
