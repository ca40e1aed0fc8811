import Restyle.Proofs.Stylesheet.Mention

/-! # Nested CSS from nodes

The nested CSS of a stylesheet for a token depends on two lists of nodes: those
of the stylesheet, and those that remain without the conditional blocks that
hold rules for the token. A closed part that does not mention the token changes
neither in a way that shows.
-/

namespace Restyle

open Text

namespace ConditionalBlock

/-- The condition of a conditional block that holds rules for a token, and the nested CSS in it. -/
def ofNode? (token : Text) : Node → Option (Text × Text)
  | .declaration _ => none
  | .block selector body =>
    match AtRule.condition? selector with
    | none => none
    | some condition =>
      let rules := Rule.ofNodes token [] body
      if rules.isEmpty then none else some (condition, Rule.render rules true)

def holds (token : Text) (n : Node) : Bool :=
  (ofNode? token n).isSome

variable {token : Text} {n : Node}

theorem holds_declaration (token t : Text) : holds token (.declaration t) = false := rfl

theorem ofPiece?_eq (token : Text) (p : Piece) :
    ofPiece? token p = (ofNode? token p.node).map fun (c, css) => ⟨c, css, p.span⟩ := by
  rw [ofPiece?]
  rcases p.node with t | ⟨selector, body⟩
  · rfl
  · simp only [ofNode?]
    cases AtRule.condition? selector with
    | none => rfl
    | some condition =>
      dsimp only
      split <;> rfl

theorem map_span_extract (css token : Text) :
    (extract css token).map (·.span) =
      ((Piece.ofText css).filter (holds token ·.node)).map (·.span) := by
  rw [extract]
  induction Piece.ofText css with
  | nil => rfl
  | cons p ps ih =>
    cases h : ofNode? token p.node with
    | none =>
      rw [List.filterMap_cons_none (by rw [ofPiece?_eq, h]; rfl),
        List.filter_cons_of_neg (by simp [holds, h]), ih]
    | some entry =>
      rw [List.filterMap_cons_some (by rw [ofPiece?_eq, h]; rfl),
        List.filter_cons_of_pos (by simp [holds, h]), List.map_cons, List.map_cons, ih]

theorem map_css_extract (css token : Text) :
    (extract css token).map (fun b => (b.condition, b.css)) =
      (Node.ofText css).filterMap (ofNode? token) := by
  rw [extract, Node.ofText, List.map_filterMap, List.filterMap_map]
  congr 1
  funext p
  rw [Function.comp_apply, ofPiece?_eq, Option.map_map]
  exact Option.map_id'

theorem ofNode?_eq_none (k : Token) (h : ∀ s ∈ n.selectors, ¬ k.Mentioned s) :
    ofNode? k.text n = none := by
  cases n with
  | declaration t => rfl
  | block selector body =>
    rw [ofNode?]
    cases hc : AtRule.condition? selector with
    | none => rfl
    | some condition =>
      rw [Node.selectors, if_pos (AtRule.startsWith_of_condition? hc), hc, Option.isSome_some,
        if_pos rfl] at h
      simp [Rule.ofNodes_eq_nil k [] body h]

end ConditionalBlock

open ConditionalBlock Node

def nestedOf (token : Text) (nodes rest : List Node) : Text :=
  let plain := Rule.render (Rule.ofNodes token [] rest) false
  let conditional := (Table.group (nodes.filterMap (ofNode? token))).map fun (c, bodies) =>
    braced c (join "\n" bodies)
  trim (join "\n" ((if plain.isEmpty then [] else [plain]) ++ conditional))

theorem nestedCss_eq (css token : Text) :
    nestedCss css token = nestedOf token (ofText css) (remaining (holds token) css) := by
  rw [nestedCss, nestedOf]
  simp only [map_css_extract, map_span_extract]
  rw [Rule.extract, Cutter.ofText_cutOut (holds_declaration token), remaining]

variable {k : Token} {t u v w w' : Text} {ns ms : List Node}

theorem nestedCss_between (hw : Blank w) (hw' : Blank w') (t token : Text) :
    nestedCss (w ++ t ++ w') token = nestedCss t token := by
  rw [nestedCss_eq, nestedCss_eq, ofText_between hw hw',
    remaining_between (holds_declaration token) hw hw']

theorem selectorNames_between (hw : Blank w) (hw' : Blank w') (t : Text) (sigil : Char) :
    selectorNames (w ++ t ++ w') sigil = selectorNames t sigil := by
  rw [selectorNames, selectorNames, ofText_between hw hw']

theorem holds_eq_false (h : ∀ s ∈ selectorsOfAll ns, ¬ k.Mentioned s) :
    ∀ n ∈ ns, holds k.text n = false := by
  intro n hn
  rw [holds, ofNode?_eq_none k fun s hs => h s (mem_selectorsOfAll.mpr ⟨n, hn, hs⟩)]
  rfl

theorem filterMap_ofNode?_eq_nil (h : ∀ s ∈ selectorsOfAll ns, ¬ k.Mentioned s) :
    ns.filterMap (ofNode? k.text) = [] := by
  refine List.filterMap_eq_nil_iff.mpr fun n hn => ?_
  exact ofNode?_eq_none k fun s hs => h s (mem_selectorsOfAll.mpr ⟨n, hn, hs⟩)

/-- A closed part of a stylesheet that does not mention a token may be left out, if what stands
before it is complete. -/
theorem nestedCss_leave_out (ht : Snippet.Complete t) (hu : Snippet.Closed u)
    (h : ∀ s ∈ selectorsOfAll (ofText u), ¬ k.Mentioned s) (v : Text) :
    nestedCss (t ++ (u ++ v)) k.text = nestedCss (t ++ v) k.text := by
  have ht' := ht (holds k.text) (holds_declaration k.text)
  have hskips := holds_eq_false h
  have hu' := hu.closedWithout hskips
  have hrules := Rule.ofNodes_eq_nil k [] _ h
  simp only [nestedCss_eq, nestedOf, ht'.remaining_append, hu'.remaining_append,
    Snippet.remaining_eq_of_unskipped hskips, ht'.toClosed.ofText_append, hu.ofText_append,
    Rule.ofNodes_append, hrules, List.filterMap_append, filterMap_ofNode?_eq_nil h,
    List.nil_append]

theorem nestedCss_eq_nil (h : ∀ s ∈ selectorsOfAll (ofText t), ¬ k.Mentioned s) :
    nestedCss t k.text = [] := by
  rw [nestedCss_eq, nestedOf, Snippet.remaining_eq_of_unskipped (holds_eq_false h),
    Rule.ofNodes_eq_nil k [] _ h, filterMap_ofNode?_eq_nil h]
  rfl

end Restyle
