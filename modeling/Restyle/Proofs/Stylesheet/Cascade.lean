import Restyle.Declaration.Basic
import Restyle.Proofs.Stylesheet.Chunk
import Restyle.Proofs.Stylesheet.Grouping
import Restyle.Proofs.Stylesheet.Nested
import Restyle.Proofs.Text.Cut

/-! # The cascade in nested CSS

Under one selector the last value that is declared for a property counts. Nested
CSS keeps the rules of a selector in order, but of bodies that occur again it
keeps the first. So the value that counts may be one that a later rule has
declared anew.
-/

namespace Restyle

open Text Lexeme ConditionalBlock

namespace Declaration

def bare (d : Declaration) : Text :=
  d.property ++ ": " ++ d.value

/-- The property and the value of a declaration, unless one of the two is missing. -/
def ofText? (t : Text) : Option Declaration :=
  match cut? (· == ':') t with
  | none => none
  | some (property, value) =>
    if trim property = [] ∨ trim value = [] then none else some ⟨trim property, trim value⟩

end Declaration

namespace Node

def declaration? : Node → Option Declaration
  | .declaration t => Declaration.ofText? t
  | .block _ _ => none

def declarations (ns : List Node) : List Declaration :=
  ns.filterMap declaration?

/-- What nested CSS declares under a selector; outside of blocks that is the token itself. -/
def declaredUnder (selector : Text) (ns : List Node) : List Declaration :=
  ns.flatMap fun n => match n with
    | .declaration _ => if selector = "&" then n.declaration?.toList else []
    | .block s body => if s = selector then declarations body else []

def isDeclaration : Node → Bool
  | .declaration _ => true
  | .block _ _ => false

def isStyleRule : Node → Bool
  | .declaration _ => false
  | .block selector body => !selector.startsWith "@" && body.all isDeclaration

end Node

def relativeSelector? (token selector : Text) : Option Text :=
  let selectors := (Selector.splitList selector).filterMap (Selector.relativeTo? · token)
  if selectors = [] then none else some (join ", " selectors)

def styleRule? (token : Text) : Node → Option (Text × List Declaration)
  | .declaration _ => none
  | .block selector body =>
    if Node.declarations body = [] then none
    else (relativeSelector? token selector).map fun s => (s, Node.declarations body)

def styleRules (token : Text) (ns : List Node) : List (Text × List Declaration) :=
  ns.filterMap (styleRule? token)

/-- The bodies of the style rules under a nested selector. -/
def bodiesUnder (token selector : Text) (ns : List Node) : List (List Declaration) :=
  ((styleRules token ns).filter (·.1 = selector)).map (·.2)

/-- The value of a property that counts among declarations. -/
def lastValue? (ds : List Declaration) (property : Text) : Option Text :=
  ((ds.filter (·.property = property)).getLast?).map (·.value)

/-- A stylesheet of style rules whose nested selectors and declarations for a token are read as they
are written, each declaration on one line. -/
structure Legible (token css : Text) : Prop where
  rules : ∀ n ∈ Node.ofText css, n.isStyleRule = true
  selectors : ∀ r ∈ styleRules token (Node.ofText css), Chunk r.1
  declarations : ∀ r ∈ styleRules token (Node.ofText css), ∀ d ∈ r.2, Chunk d.bare ∧ '\n' ∉ d.bare

instance (token css : Text) : Decidable (Legible token css) :=
  decidable_of_iff ((∀ n ∈ Node.ofText css, n.isStyleRule = true) ∧
      (∀ r ∈ styleRules token (Node.ofText css), Chunk r.1) ∧
      ∀ r ∈ styleRules token (Node.ofText css), ∀ d ∈ r.2, Chunk d.bare ∧ '\n' ∉ d.bare)
    ⟨fun h => ⟨h.1, h.2.1, h.2.2⟩, fun h => ⟨h.1, h.2, h.3⟩⟩

def bodyText (ds : List Declaration) : Text :=
  join "\n" (ds.map Declaration.text)

variable {token css t : Text} {n : Node} {ns : List Node} {d : Declaration}
  {ds : List Declaration}

theorem Declaration.ofText?_bare (h : ofText? t = some d) : ofText? d.bare = some d := by
  unfold ofText? at h
  rcases hcut : cut? (· == ':') t with _ | ⟨property, value⟩ <;> rw [hcut] at h
  · exact absurd h (by simp)
  · dsimp only at h
    split_ifs at h with hne
    obtain rfl := Option.some.inj h
    obtain ⟨c, -, -, hp⟩ := cut?_eq_some hcut
    have hproperty : ∀ a ∈ trim property, (a == ':') = false := by
      intro a ha
      obtain ⟨w, w', -, -, he⟩ := exists_eq_trim property
      refine hp a ?_
      rw [he]
      exact List.mem_append_left _ (List.mem_append_right _ ha)
    have hbare : bare ⟨trim property, trim value⟩ =
        trim property ++ ':' :: ([' '] ++ trim value) := by
      simp [bare]
    have hvalue : trim ([' '] ++ trim value) = trim value := by
      rw [trim_blank_append (by decide), (trimmed_trim value).trim_eq]
    rw [ofText?, hbare, cut?_append hproperty (beq_self_eq_true ':')]
    dsimp only
    rw [(trimmed_trim property).trim_eq, hvalue, if_neg hne]

theorem Declaration.text_ne_nil (d : Declaration) : d.text ≠ [] := by
  simp [text]

theorem bodyText_eq_nil : bodyText ds = [] ↔ ds = [] := by
  refine ⟨fun h => ?_, fun h => by rw [h]; rfl⟩
  by_contra hne
  obtain ⟨d, ds, rfl⟩ := List.exists_cons_of_ne_nil hne
  exact join_ne_nil List.mem_cons_self d.text_ne_nil h

namespace Node

theorem formatDeclaration?_eq (t : Text) :
    formatDeclaration? t = (Declaration.ofText? t).map Declaration.text := by
  unfold formatDeclaration? Declaration.ofText?
  rcases cut? (· == ':') t with _ | ⟨property, value⟩
  · rfl
  · simp only [Bool.or_eq_true, List.isEmpty_iff]
    split_ifs <;> rfl

theorem formatAll_eq (h : ns.all isDeclaration = true) :
    formatAll ns = (declarations ns).map Declaration.text := by
  induction ns with
  | nil => rfl
  | cons n ns ih =>
    rw [List.all_cons, Bool.and_eq_true] at h
    cases n with
    | block selector body => exact absurd h.1 Bool.false_ne_true
    | declaration t =>
      rw [formatAll, format, formatDeclaration?_eq, ih h.2, declarations, declarations,
        List.filterMap_cons, declaration?]
      cases Declaration.ofText? t <;> rfl

theorem formatBody_eq (h : ns.all isDeclaration = true) :
    formatBody ns = bodyText (declarations ns) := by
  rw [formatBody, formatAll_eq h, bodyText]

theorem isStyleRule_block {selector : Text} {body : List Node}
    (h : isStyleRule (.block selector body) = true) :
    selector.startsWith "@" = false ∧ body.all isDeclaration = true := by
  simpa [isStyleRule] using h

theorem ofBlock_eq (token selector : Text) (h : ns.all isDeclaration = true) :
    Rule.ofBlock token [] selector ns =
      ((styleRule? token (.block selector ns)).map fun r => ⟨[], r.1, bodyText r.2⟩).toList := by
  rw [Rule.ofBlock, formatBody_eq h, styleRule?, relativeSelector?]
  simp only [Bool.or_eq_true, List.isEmpty_iff, bodyText_eq_nil]
  by_cases hds : declarations ns = []
  · simp [hds]
  · by_cases hs : (Selector.splitList selector).filterMap (Selector.relativeTo? · token) = []
    · simp [hs]
    · simp [hds, hs]

theorem ofNodes_eq (h : ∀ n ∈ ns, isStyleRule n = true) :
    Rule.ofNodes token [] ns = (styleRules token ns).map fun r => ⟨[], r.1, bodyText r.2⟩ := by
  induction ns with
  | nil => rfl
  | cons n ns ih =>
    obtain ⟨hn, hns⟩ := List.forall_mem_cons.mp h
    cases n with
    | declaration t => exact absurd hn Bool.false_ne_true
    | block selector body =>
      obtain ⟨hselector, hbody⟩ := isStyleRule_block hn
      have hat : ¬ selector.startsWith "@" = true := by
        rw [hselector]
        exact Bool.false_ne_true
      rw [Rule.ofNodes, Rule.ofNode, if_neg hat, ofBlock_eq token selector hbody, ih hns, styleRules,
        styleRules, List.filterMap_cons]
      cases styleRule? token (.block selector body) <;> rfl

end Node

def declarationNodes (ds : List Declaration) : List Node :=
  ds.map fun d => .declaration d.bare

structure Declaration.IsPlain (d : Declaration) : Prop where
  spells : ofText? d.bare = some d
  chunk : Chunk d.bare
  no_feed : '\n' ∉ d.bare

theorem Declaration.IsPlain.isLine (h : d.IsPlain) {w : Text} (hw : '\n' ∉ w) :
    IsLine (w ++ d.text) := by
  have htext : w ++ d.text = w ++ d.bare ++ [';'] := (List.append_assoc w d.bare [';']).symm
  rw [htext]
  refine ⟨by simp, ?_, ?_⟩
  · simpa using ⟨hw, h.no_feed⟩
  · rw [List.getLast?_concat]
    decide

section Body

variable {ds' : List Declaration} {dss : List (List Declaration)}

theorem declarations_declarationNodes (h : ∀ d ∈ ds, d.IsPlain) :
    Node.declarations (declarationNodes ds) = ds := by
  rw [Node.declarations, declarationNodes, List.filterMap_map]
  exact (List.filterMap_congr fun d hd => (h d hd).spells).trans List.filterMap_some

/-- Declarations that are read as they are written are read back from lines of their own, with or
without white space in front of them. -/
theorem yields_chunks (h : ∀ d ∈ ds, Chunk d.bare) {w : Text} (hw : Blank w) :
    Yields (declarationNodes ds) (join "\n" (ds.map fun d => w ++ d.text)) := by
  have hparts : ∀ p ∈ ds.map fun d => ([Node.declaration d.bare], w ++ d.text), Yields p.1 p.2 := by
    intro p hp
    obtain ⟨d, hd, rfl⟩ := List.mem_map.mp hp
    exact (Yields.declaration (h d hd)).blank_append hw
  have hjoin := Yields.join hparts
  rw [List.map_map, List.flatMap_map, ← List.map_eq_flatMap] at hjoin
  exact hjoin

theorem yields_lines (h : ∀ d ∈ ds, d.IsPlain) {w : Text} (hw : Blank w) :
    Yields (declarationNodes ds) (join "\n" (ds.map fun d => w ++ d.text)) :=
  yields_chunks (fun d hd => (h d hd).chunk) hw

theorem yields_bodyText (h : ∀ d ∈ ds, d.IsPlain) :
    Yields (declarationNodes ds) (bodyText ds) :=
  yields_lines h .nil

theorem indent_bodyText (h : ∀ d ∈ ds, d.IsPlain) :
    indent (bodyText ds) = join "\n" (ds.map fun d => "  " ++ d.text) := by
  have hlines : lines (bodyText ds) = ds.map Declaration.text := by
    refine lines_join fun t ht => ?_
    obtain ⟨d, hd, rfl⟩ := List.mem_map.mp ht
    exact (h d hd).isLine (w := []) (by simp)
  rw [indent, hlines, List.map_map]
  congr 1
  refine List.map_congr_left fun d _ => ?_
  simp [d.text_ne_nil]

theorem bodyText_injOn (h : ∀ d ∈ ds, d.IsPlain) (h' : ∀ d ∈ ds', d.IsPlain)
    (he : bodyText ds = bodyText ds') : ds = ds' := by
  rw [← declarations_declarationNodes h, ← (yields_bodyText h).ofText, he,
    (yields_bodyText h').ofText, declarations_declarationNodes h']

theorem join_bodyText (h : ∀ ds ∈ dss, ds ≠ []) :
    join "\n" (dss.map bodyText) = bodyText dss.flatten := by
  have hmap : dss.map bodyText = (dss.map (·.map Declaration.text)).map (join "\n") := by
    rw [List.map_map]
    rfl
  rw [hmap, join_map_join, bodyText, List.map_flatten]
  intro ts hts
  obtain ⟨ds, hds, rfl⟩ := List.mem_map.mp hts
  simpa using h ds hds

end Body

namespace Legible

theorem ofNode?_eq_none (h : Legible token css) (hn : n ∈ Node.ofText css) :
    ofNode? token n = none := by
  have hrule := h.rules n hn
  cases n with
  | declaration t => rfl
  | block selector body =>
    rw [ofNode?]
    cases hc : AtRule.condition? selector with
    | none => rfl
    | some condition =>
      have hat := AtRule.startsWith_of_condition? hc
      rw [(Node.isStyleRule_block hrule).1] at hat
      exact absurd hat Bool.false_ne_true

/-- A stylesheet of style rules is printed as a whole. -/
theorem nestedCss_eq (h : Legible token css) :
    nestedCss css token = trim (Rule.render (Rule.ofNodes token [] (Node.ofText css)) false) := by
  have hskips : ∀ n ∈ Node.ofText css, holds token n = false := fun n hn => by
    rw [holds, h.ofNode?_eq_none hn]
    rfl
  have hblocks : (Node.ofText css).filterMap (ofNode? token) = [] :=
    List.filterMap_eq_nil_iff.mpr fun n hn => h.ofNode?_eq_none hn
  rw [Restyle.nestedCss_eq, Snippet.remaining_eq_of_unskipped hskips, nestedOf, hblocks]
  generalize Rule.render (Rule.ofNodes token [] (Node.ofText css)) false = t
  rcases t with _ | ⟨c, t⟩
  · rfl
  · exact congrArg trim (join_singleton "\n" (c :: t))

theorem exists_of_mem_styleRules {r : Text × List Declaration} (hr : r ∈ styleRules token ns) :
    r.2 ≠ [] ∧ ∀ d ∈ r.2, ∃ t, Declaration.ofText? t = some d := by
  obtain ⟨n, -, hn⟩ := List.mem_filterMap.mp hr
  cases n with
  | declaration t => exact absurd hn (by simp [styleRule?])
  | block selector body =>
    rw [styleRule?] at hn
    split_ifs at hn with hbody
    obtain ⟨s, -, rfl⟩ := Option.map_eq_some_iff.mp hn
    refine ⟨hbody, fun d hd => ?_⟩
    obtain ⟨m, -, hm⟩ := List.mem_filterMap.mp hd
    cases m with
    | declaration t => exact ⟨t, hm⟩
    | block _ _ => exact absurd hm (by simp [Node.declaration?])

theorem isPlain (h : Legible token css) {r : Text × List Declaration}
    (hr : r ∈ styleRules token (Node.ofText css)) : ∀ d ∈ r.2, d.IsPlain := by
  intro d hd
  obtain ⟨t, ht⟩ := (exists_of_mem_styleRules hr).2 d hd
  obtain ⟨hchunk, hfeed⟩ := h.declarations r hr d hd
  exact ⟨Declaration.ofText?_bare ht, hchunk, hfeed⟩

theorem of_mem_bodiesUnder (h : Legible token css) {selector : Text}
    (hds : ds ∈ bodiesUnder token selector (Node.ofText css)) :
    ds ≠ [] ∧ ∀ d ∈ ds, d.IsPlain := by
  obtain ⟨r, hr, rfl⟩ := List.mem_map.mp hds
  have hr := List.mem_of_mem_filter hr
  exact ⟨(exists_of_mem_styleRules hr).1, h.isPlain hr⟩

/-- The declarations under a selector that are kept: those of bodies that repeat none before. -/
def kept (token css selector : Text) : List Declaration :=
  (bodiesUnder token selector (Node.ofText css)).eraseDups.flatten

theorem isPlain_of_mem_kept (h : Legible token css) {selector : Text} :
    ∀ d ∈ kept token css selector, d.IsPlain := by
  intro d hd
  obtain ⟨ds, hds, hd⟩ := List.mem_flatten.mp hd
  exact (h.of_mem_bodiesUnder (List.mem_eraseDups.mp hds)).2 d hd

def rulesFor (token css : Text) : List Rule :=
  Rule.ofNodes token [] (Node.ofText css)

theorem bodyPairs_rulesFor (h : Legible token css) :
    Rule.bodyPairs (rulesFor token css) =
      (styleRules token (Node.ofText css)).map fun r => (r.1, bodyText r.2) := by
  rw [Rule.bodyPairs, rulesFor, Node.ofNodes_eq h.rules, List.map_map]
  rfl

theorem bodiesOf_eq (h : Legible token css) (selector : Text) :
    Rule.bodiesOf (Rule.bodyPairs (rulesFor token css)) selector =
      (bodiesUnder token selector (Node.ofText css)).eraseDups.map bodyText := by
  rw [← eraseDups_map fun ds hds ds' hds' => bodyText_injOn (h.of_mem_bodiesUnder hds).2
    (h.of_mem_bodiesUnder hds').2, Rule.bodiesOf, h.bodyPairs_rulesFor, List.filter_map,
    List.map_map, bodiesUnder, List.map_map]
  rfl

theorem join_bodiesOf (h : Legible token css) (selector : Text) :
    join "\n" (Rule.bodiesOf (Rule.bodyPairs (rulesFor token css)) selector) =
      bodyText (kept token css selector) := by
  rw [h.bodiesOf_eq, join_bodyText, kept]
  exact fun ds hds => (h.of_mem_bodiesUnder (List.mem_eraseDups.mp hds)).1

theorem yields_braced (h : Legible token css) {selector : Text} {bodies : List Text}
    (hb : (selector, bodies) ∈ Rule.nestedBodies (rulesFor token css)) :
    Yields [.block selector (declarationNodes (kept token css selector))]
      (braced selector (join "\n" bodies)) := by
  obtain ⟨body, hpair⟩ := Rule.exists_of_mem_groupBodies hb
  obtain ⟨hpair, hne⟩ := List.mem_filter.mp hpair
  have hselector : Chunk selector := by
    rw [h.bodyPairs_rulesFor] at hpair
    obtain ⟨r, hr, he⟩ := List.mem_map.mp hpair
    obtain ⟨rfl, -⟩ := Prod.mk.inj he
    exact h.selectors r hr
  have hbodies : bodies = Rule.bodiesOf (Rule.bodyPairs (rulesFor token css)) selector :=
    (Rule.eq_bodiesOf_of_mem hb).trans (Rule.bodiesOf_filter_ne (of_decide_eq_true hne))
  rw [hbodies, h.join_bodiesOf, braced, indent_bodyText h.isPlain_of_mem_kept]
  exact .block hselector (yields_lines h.isPlain_of_mem_kept (by decide))

theorem kept_eq_nil (h : Legible token css) {selector : Text}
    (hb : Rule.bodiesOf (Rule.bodyPairs (rulesFor token css)) selector = []) :
    kept token css selector = [] := by
  rw [h.bodiesOf_eq, List.map_eq_nil_iff] at hb
  rw [kept, hb]
  rfl

def rootParts (token css : Text) : List (List Node × Text) :=
  if Rule.bodiesOf (Rule.bodyPairs (rulesFor token css)) "&" = [] then []
  else [(declarationNodes (kept token css "&"),
    join "\n" (Rule.bodiesOf (Rule.bodyPairs (rulesFor token css)) "&"))]

def nestedParts (token css : Text) : List (List Node × Text) :=
  (Rule.nestedBodies (rulesFor token css)).map fun e =>
    ([.block e.1 (declarationNodes (kept token css e.1))], braced e.1 (join "\n" e.2))

theorem yields_of_mem_parts (h : Legible token css) :
    ∀ p ∈ rootParts token css ++ nestedParts token css, Yields p.1 p.2 := by
  intro p hp
  rcases List.mem_append.mp hp with hp | hp
  · rw [rootParts] at hp
    split_ifs at hp
    · exact absurd hp List.not_mem_nil
    · obtain rfl := List.mem_singleton.mp hp
      rw [h.join_bodiesOf]
      exact yields_bodyText h.isPlain_of_mem_kept
  · obtain ⟨e, he, rfl⟩ := List.mem_map.mp hp
    exact h.yields_braced he

/-- Nested CSS is read back with what is kept under every selector. -/
theorem ofText_nestedCss (h : Legible token css) :
    Node.ofText (nestedCss css token) = declarationNodes (kept token css "&") ++
      (Rule.nestedBodies (rulesFor token css)).map fun e =>
        .block e.1 (declarationNodes (kept token css e.1)) := by
  have hunconditional : ∀ r ∈ rulesFor token css, r.conditions = [] := by
    intro r hr
    rw [rulesFor, Node.ofNodes_eq h.rules] at hr
    obtain ⟨e, -, rfl⟩ := List.mem_map.mp hr
    rfl
  have htext : nestedCss css token =
      trim (join "\n" ((rootParts token css ++ nestedParts token css).map (·.2))) := by
    rw [h.nestedCss_eq, ← rulesFor, Rule.render_of_unconditional hunconditional, List.map_append,
      rootParts, nestedParts, List.map_map]
    split_ifs <;> rfl
  have hroot : (rootParts token css).flatMap (·.1) = declarationNodes (kept token css "&") := by
    rw [rootParts]
    split_ifs with hb
    · rw [h.kept_eq_nil hb]
      rfl
    · exact List.append_nil _
  rw [htext, ofText_trim, (Yields.join h.yields_of_mem_parts).ofText, List.flatMap_append, hroot,
    nestedParts, List.flatMap_map, List.map_eq_flatMap]

theorem declaredUnder_declarationNodes (hds : ∀ d ∈ ds, d.IsPlain) (selector : Text) :
    Node.declaredUnder selector (declarationNodes ds) = if selector = "&" then ds else [] := by
  rw [Node.declaredUnder, declarationNodes, List.flatMap_map]
  split_ifs with hs
  · have hself : ds.flatMap (fun d => (Node.declaration? (.declaration d.bare)).toList) =
        ds.flatMap fun d => [d] :=
      List.flatMap_congr fun d hd => congrArg Option.toList (hds d hd).spells
    exact hself.trans (List.flatMap_singleton' ds)
  · exact List.flatMap_eq_nil_iff.mpr fun _ _ => rfl

theorem declaredUnder_blocks (h : Legible token css) (selector : Text) :
    Node.declaredUnder selector ((Rule.nestedBodies (rulesFor token css)).map fun e =>
      .block e.1 (declarationNodes (kept token css e.1))) =
      if selector = "&" then [] else kept token css selector := by
  have hblock : ∀ e ∈ Rule.nestedBodies (rulesFor token css),
      (if e.1 = selector then Node.declarations (declarationNodes (kept token css e.1)) else []) =
        if e.1 = selector then kept token css selector else [] := by
    intro e _
    rw [declarations_declarationNodes h.isPlain_of_mem_kept]
    split_ifs with he
    · rw [he]
    · rfl
  have hnodup : (Rule.nestedBodies (rulesFor token css)).keys.Nodup :=
    Rule.nodup_keys_groupBodies _
  rw [Node.declaredUnder, List.flatMap_map]
  refine (List.flatMap_congr hblock).trans ?_
  refine (Table.flatMap_of_key hnodup selector fun _ => kept token css selector).trans ?_
  cases hget : (Rule.nestedBodies (rulesFor token css)).get? selector with
  | none =>
    refine (ite_eq_left_iff.mpr fun hne => h.kept_eq_nil ?_).symm
    rw [← Rule.bodiesOf_filter_ne hne, ← Rule.getD_groupBodies]
    exact congrArg (Option.getD · []) hget
  | some bodies =>
    obtain ⟨body, hpair⟩ := Rule.exists_of_mem_groupBodies (Table.mem_of_get? hget)
    have hne : selector ≠ "&" := of_decide_eq_true (List.mem_filter.mp hpair).2
    exact (if_neg hne).symm

/-- What nested CSS declares under a selector are the bodies of the rules for it, in order, less
those that repeat an earlier one. -/
theorem declaredUnder_nestedCss (h : Legible token css) (selector : Text) :
    Node.declaredUnder selector (Node.ofText (nestedCss css token)) = kept token css selector := by
  have hplain : ∀ d ∈ kept token css "&", d.IsPlain := h.isPlain_of_mem_kept
  have hroot := declaredUnder_declarationNodes hplain selector
  have hblocks := h.declaredUnder_blocks selector
  rw [h.ofText_nestedCss]
  refine List.flatMap_append.trans ((congrArg₂ (· ++ ·) hroot hblocks).trans ?_)
  split_ifs with hs
  · rw [hs, List.append_nil]
  · rfl

/-- The value that counts in nested CSS is the last one among bodies that repeat no earlier body
under their selector. -/
theorem lastValue?_nestedCss (h : Legible token css) (selector property : Text) :
    lastValue? (Node.declaredUnder selector (Node.ofText (nestedCss css token))) property =
      lastValue? (bodiesUnder token selector (Node.ofText css)).eraseDups.flatten property := by
  rw [h.declaredUnder_nestedCss, kept]

theorem lastValue?_nestedCss_quoted :
    let css : Text := ".a:hover\x7bb:\"c;\"\x7d.a\x7bb:d\x7d.a:hover\x7bb:e\x7d"
    Legible ".a" css ∧
      lastValue? (Node.declaredUnder "&:hover" (Node.ofText (nestedCss css ".a"))) "b" =
        some "e" := by
  have hlegible : Legible ".a" ".a:hover\x7bb:\"c;\"\x7d.a\x7bb:d\x7d.a:hover\x7bb:e\x7d" := by
    decide +kernel
  refine ⟨hlegible, (lastValue?_nestedCss hlegible "&:hover" "b").trans ?_⟩
  decide +kernel

/-- A value that is declared anew after another one does not count again. -/
theorem later_value_lost :
    let css : Text := ".a\x7bcolor:red\x7d.a\x7bcolor:blue\x7d.a\x7bcolor:red\x7d"
    lastValue? (bodiesUnder ".a" "&" (Node.ofText css)).flatten "color" = some "red" ∧
      lastValue? (Node.declaredUnder "&" (Node.ofText (nestedCss css ".a"))) "color" =
        some "blue" := by
  decide +kernel

end Legible

end Restyle
