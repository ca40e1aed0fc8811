import Restyle.Proofs.Stylesheet.Mention
import Restyle.Proofs.Stylesheet.Sheet
import Restyle.Proofs.Text.Cut
import Restyle.Proofs.Text.Lines

/-! # Rules of a printed stylesheet

Reading a printed sheet gives its style rules back, in order and with their
conditions, however it is spaced and however deep its at-rules are nested.
-/

namespace Restyle

open Text

variable {t u w : Text} {c : Char} {P : Text → Prop}

namespace Spaced

variable {s : Spaced P}

theorem trim_print (s : Spaced P) (h : Trimmed s.text) : trim s.print = s.text :=
  h.trim_between s.blank_before s.blank_after

theorem segment (s : Spaced P) (h : Segment s.text) : Segment s.print :=
  (h.blank_append s.blank_before).append_blank s.blank_after

end Spaced

namespace Sheet

namespace Pair

variable (p : Pair)

theorem segment_print : Segment p.print :=
  (p.property.segment p.property.prop.toSegment).append_cons
    (p.value.segment p.value.prop.toSegment) (by simp)

def text : Text :=
  p.property.text ++ (p.property.after ++ ':' :: p.value.before) ++ p.value.text

theorem trim_print : trim p.print = p.text := by
  have hp := p.property.prop
  have hv := p.value.prop
  have ht : Trimmed p.text := hp.trimmed.append hv.trimmed hp.ne_nil hv.ne_nil _
  rw [← ht.trim_between p.property.blank_before p.value.blank_after]
  simp [print, Spaced.print, text]

theorem text_ne_nil : p.text ≠ [] := by
  simp [text]

theorem formatDeclaration?_text : Node.formatDeclaration? p.text = some p.line := by
  have hp := p.property.prop
  have hv := p.value.prop
  have hcolon : ∀ d ∈ p.property.text ++ p.property.after, (d == ':') = false := by
    intro d hd
    rw [beq_eq_false_iff_ne]
    rintro rfl
    rcases List.mem_append.mp hd with hd | hd
    · exact hp.colon_notMem hd
    · exact p.property.blank_after.ne_of_mem hd (by decide : isBlank ':' = false) rfl
  have hcut : cut? (· == ':') p.text =
      some (p.property.text ++ p.property.after, p.value.before ++ p.value.text) := by
    rw [← cut?_append (c := ':') hcolon (by decide)]
    simp [text]
  have hproperty : trim (p.property.text ++ p.property.after) = p.property.text := by
    rw [trim_append_blank _ p.property.blank_after, hp.trimmed.trim_eq]
  have hvalue : trim (p.value.before ++ p.value.text) = p.value.text := by
    rw [trim_blank_append p.value.blank_before, hv.trimmed.trim_eq]
  simp [Node.formatDeclaration?, hcut, hproperty, hvalue, hp.ne_nil, hv.ne_nil, line]

end Pair

namespace Body

variable (b : Body)

def nodes : List Node :=
  (b.init ++ [b.last]).map fun p => .declaration p.text

theorem fills_print : Fills (· = b.nodes) b.print := by
  have hinit : ∀ ps : List Pair, Adds (· = ps.map fun p => .declaration p.text)
      (ps.flatMap fun p => p.print ++ [';']) := by
    intro ps
    induction ps with
    | nil => exact .nil
    | cons p ps ih =>
      have hp := Adds.declaration p.segment_print (p.trim_print ▸ p.text_ne_nil)
      rw [p.trim_print] at hp
      refine (hp.append ih).imp ?_
      rintro ns ⟨_, _, rfl, rfl, rfl⟩
      rfl
  have hne := b.last.trim_print ▸ b.last.text_ne_nil
  rw [print]
  rcases hs : b.stop with _ | w
  · rw [Option.map_none, Option.getD_none, List.append_nil]
    refine ((hinit b.init).append_segment b.last.segment_print hne).imp ?_
    rintro ns ⟨_, rfl, rfl⟩
    simp [nodes, b.last.trim_print]
  · have hlast := (Adds.declaration b.last.segment_print hne).append_blank w.property
    rw [Option.map_some, Option.getD_some, List.append_cons]
    refine ((hinit b.init).append hlast).fills.imp ?_
    rintro ns ⟨_, _, rfl, rfl, rfl⟩
    simp [nodes, b.last.trim_print]

theorem formatBody_nodes : Node.formatBody b.nodes = join "\n" b.lines := by
  have hall : ∀ ps : List Pair,
      Node.formatAll (ps.map fun p => .declaration p.text) = ps.map Pair.line := by
    intro ps
    induction ps with
    | nil => rfl
    | cons p ps ih => simp [Node.formatAll, Node.format, p.formatDeclaration?_text, ih]
  rw [Node.formatBody, nodes, hall, lines]

theorem join_lines_ne_nil : join "\n" b.lines ≠ [] := by
  have hmem : b.last.line ∈ b.lines := by simp [lines]
  exact join_ne_nil hmem (by simp [Pair.line])

end Body

namespace StyleRule

variable (r : StyleRule)

theorem segment_printList (first : Spaced IsSelector) (more : List (Spaced IsSelector)) :
    Segment (printList first more) := by
  have hsegment (s : Spaced IsSelector) : Segment s.print := s.segment s.prop.toSegment
  induction more generalizing first with
  | nil => simpa [printList] using hsegment first
  | cons s more ih => exact (hsegment first).append_cons (ih s) (by simp)

theorem splitList_printList (first : Spaced IsSelector) (more : List (Spaced IsSelector)) :
    Selector.splitList (printList first more) = first.text :: more.map (·.text) := by
  have hdepth (s : Spaced IsSelector) : Selector.depthBehind? 0 s.print = some 0 := by
    rw [Spaced.print, List.append_assoc,
      Selector.depthBehind?_append (Selector.depthBehind?_of_blank s.blank_before 0),
      Selector.depthBehind?_append s.prop.single,
      Selector.depthBehind?_of_blank s.blank_after 0]
  have hpart (s : Spaced IsSelector) : Selector.part s.print = [s.text] := by
    rw [Selector.part, s.trim_print s.prop.trimmed]
    simp [s.prop.ne_nil]
  induction more generalizing first with
  | nil =>
    rw [printList, List.flatMap_nil, List.append_nil,
      Selector.splitList_of_depthBehind? (hdepth first), hpart first]
    rfl
  | cons s more ih =>
    rw [printList, List.flatMap_cons, List.cons_append,
      Selector.splitList_append_comma (hdepth first), hpart first, ← printList, ih s]
    rfl

def prelude : Text :=
  trim (printList r.first r.more)

theorem startsWith_prelude : r.prelude.startsWith "@" = false := by
  have hfirst := r.first.prop
  have hhead : r.prelude.head? = r.first.text.head? := by
    rw [prelude, printList, Spaced.print, List.append_assoc, List.append_assoc,
      trim_blank_append r.first.blank_before, head?_trim_append hfirst.trimmed hfirst.ne_nil]
  rcases hp : r.prelude with _ | ⟨c, t⟩
  · rfl
  · rw [hp] at hhead
    have hc : c ≠ '@' := by
      rintro rfl
      exact r.head_ne hhead.symm
    simpa [startsWith, List.isPrefixOf] using hc.symm

theorem adds_print (k : Token) :
    Adds (fun ns => ∀ conditions, Rule.ofNodes k.text conditions ns = r.rules k conditions)
      r.print := by
  refine (Adds.block (segment_printList r.first r.more) r.body.fills_print).imp ?_
  rintro ns ⟨_, rfl, rfl⟩ conditions
  have hsplit : Selector.splitList r.prelude = r.selectors := by
    rw [prelude, Selector.splitList_trim, splitList_printList, selectors]
  have hbody : (Node.formatBody r.body.nodes).isEmpty = false := by
    rw [r.body.formatBody_nodes]
    exact List.isEmpty_eq_false_iff.mpr r.body.join_lines_ne_nil
  rw [← prelude, Rule.ofNodes, Rule.ofNodes, List.append_nil, Rule.ofNode, r.startsWith_prelude,
    if_neg Bool.false_ne_true, Rule.ofBlock, hsplit, k.filterMap_relativeTo?, hbody,
    r.body.formatBody_nodes, rules]
  simp

end StyleRule

namespace Prelude

variable (p : Prelude)

theorem toLower_mem_of_mem_keyword (hc : c ∈ p.keyword) :
    c.toLower ∈ conditionalKeywords.flatten :=
  List.mem_flatten.mpr ⟨_, p.conditional, List.mem_map_of_mem hc⟩

theorem notMem_of_mem_keyword {l : List Char} (hc : c ∈ p.keyword)
    (hl : (l.all fun d => d.toLower ∉ conditionalKeywords.flatten) = true) : c ∉ l :=
  notMem_of_all hl (by simpa using p.toLower_mem_of_mem_keyword hc)

theorem not_blank_of_mem_keyword (hc : c ∈ p.keyword) : isBlank c = false := by
  have hall : (conditionalKeywords.flatten.all fun d => !isBlank d) = true := by decide
  rw [← isBlank_toLower]
  simpa using List.all_eq_true.mp hall _ (p.toLower_mem_of_mem_keyword hc)

theorem segment_keyword : Segment p.keyword :=
  .of_forall fun _ hc => p.notMem_of_mem_keyword hc (by decide)

theorem head?_keyword : p.keyword.head? = some '@' := by
  have hhead : ∀ t ∈ conditionalKeywords, t.head? = some '@' := by decide
  have hl := hhead _ p.conditional
  rw [lower, List.head?_map, Option.map_eq_some_iff] at hl
  obtain ⟨c, hc, hcl⟩ := hl
  rw [hc, eq_of_toLower_eq (by decide) hcl]

theorem keyword_ne_nil : p.keyword ≠ [] := by
  rintro h
  simpa [h] using p.head?_keyword

def text : Text :=
  p.keyword ++ p.condition.before ++ p.condition.text

theorem trim_print : trim p.print = p.text := by
  have hc := p.condition.prop
  have hk : Trimmed p.keyword := by
    constructor
    · exact fun d hd => p.not_blank_of_mem_keyword (List.mem_of_head? hd)
    · exact fun d hd => p.not_blank_of_mem_keyword (List.mem_of_getLast? hd)
  have ht : Trimmed p.text := hk.append hc.trimmed p.keyword_ne_nil hc.ne_nil _
  rw [← ht.trim_between p.before.property p.condition.blank_after]
  simp [print, Spaced.print, text]

theorem segment_print : Segment p.print := by
  have hcondition := p.condition.segment p.condition.prop.toSegment
  refine (p.segment_keyword.append hcondition (Or.inl fun h => ?_)).blank_append p.before.property
  exact p.notMem_of_mem_keyword (List.mem_of_getLast? h) (l := ['/']) (by decide) (by simp)

theorem splitKeyword_text :
    AtRule.splitKeyword p.text = (p.keyword, p.condition.before ++ p.condition.text) := by
  have hkeyword : ∀ c ∈ p.keyword, (!(isBlank c || c == '(')) = true := by
    intro c hc
    have hne : c ∉ ['('] := p.notMem_of_mem_keyword hc (by decide)
    simp [p.not_blank_of_mem_keyword hc, List.mem_singleton.not.mp hne]
  obtain ⟨c, rest, hrest, hc⟩ : ∃ c rest, p.condition.before ++ p.condition.text = c :: rest ∧
      (!(isBlank c || c == '(')) = false := by
    rcases hb : p.condition.before with _ | ⟨c, w⟩
    · obtain ⟨t, ht⟩ := List.head?_eq_some_iff.mp (p.apart.resolve_left (· hb))
      exact ⟨'(', t, ht, rfl⟩
    · have hc : isBlank c = true := p.condition.blank_before c (hb ▸ List.mem_cons_self)
      exact ⟨c, w ++ p.condition.text, rfl, by simp [hc]⟩
  rw [text, List.append_assoc, hrest]
  simp only [AtRule.splitKeyword]
  rw [List.takeWhile_append_of_pos hkeyword, List.dropWhile_append_of_pos hkeyword,
    List.takeWhile_cons_of_neg (by simpa using hc), List.dropWhile_cons_of_neg (by simpa using hc),
    List.append_nil]

theorem condition?_text : AtRule.condition? p.text = some p.normal := by
  have hcondition : trim (p.condition.before ++ p.condition.text) = p.condition.text := by
    rw [trim_blank_append p.condition.blank_before, p.condition.prop.trimmed.trim_eq]
  have hk : lower p.keyword = "@media" ∨ lower p.keyword = "@container" ∨
      lower p.keyword = "@supports" := by
    simpa [conditionalKeywords] using p.conditional
  rw [AtRule.condition?, p.splitKeyword_text]
  simp only [hcondition, normal]
  rcases hk with hk | hk | hk <;> rw [hk] <;> rfl

theorem startsWith_text : p.text.startsWith "@" = true :=
  AtRule.startsWith_of_condition? p.condition?_text

end Prelude

namespace OtherRule

variable (r : OtherRule)

theorem adds_print (k : Token) :
    Adds (fun ns => ∀ conditions, Rule.ofNodes k.text conditions ns = []) r.print := by
  have hp := r.prelude.prop
  refine (Adds.block (r.prelude.segment hp.toSegment) (fills_of_bracesBehind? r.plain r.balanced)).imp ?_
  rintro ns ⟨body, -, rfl⟩ conditions
  have hcondition : AtRule.condition? r.prelude.text = none := by
    have hu := r.unconditional
    simp only [conditionalKeywords, List.mem_cons, List.not_mem_nil, or_false, not_or] at hu
    simp only [AtRule.condition?, hu, or_self, if_false]
  have hstart : r.prelude.text.startsWith "@" = true := by
    obtain ⟨t, ht⟩ := List.head?_eq_some_iff.mp r.head_eq
    simp [ht, startsWith, List.isPrefixOf]
  rw [r.prelude.trim_print hp.trimmed, Rule.ofNodes, Rule.ofNodes, List.append_nil, Rule.ofNode,
    if_pos hstart, hcondition]

end OtherRule

mutual

/-- Wherever an item is read, its rules are found. -/
theorem Item.adds_print (k : Token) : ∀ i : Item,
    Adds (fun ns => ∀ conditions, Rule.ofNodes k.text conditions ns = i.rules k conditions) i.print
  | .style r => by
    simp only [Item.print, Item.rules]
    exact r.adds_print k
  | .conditional p items stop => by
    have hitems := (adds_printAll k items).append_blank stop.property
    refine (Adds.block p.segment_print hitems.fills).imp ?_
    rintro ns ⟨body, hbody, rfl⟩ conditions
    rw [p.trim_print, Rule.ofNodes, Rule.ofNodes, List.append_nil, Rule.ofNode,
      if_pos p.startsWith_text, p.condition?_text]
    exact hbody _
  | .other r => by
    simp only [Item.print, Item.rules]
    exact r.adds_print k

theorem adds_printAll (k : Token) : ∀ items : List Item,
    Adds (fun ns => ∀ conditions, Rule.ofNodes k.text conditions ns = rulesAll k conditions items)
      (printAll items)
  | [] => by
    refine Adds.nil.imp ?_
    rintro _ rfl conditions
    rfl
  | i :: items => by
    refine ((i.adds_print k).append (adds_printAll k items)).imp ?_
    rintro ns ⟨ms, ms', hms, hms', rfl⟩ conditions
    rw [Rule.ofNodes_append, hms, hms', rulesAll]

end

/-- The rules of a printed sheet for a token are those of its tree: one for every style rule
inside conditional at-rules only of which a selector mentions the token. -/
theorem extract_print (s : Sheet) (k : Token) : Rule.extract s.print k.text = s.rules k := by
  have hs := (adds_printAll k s.items).append_blank s.stop.property
  exact hs.ofText []

example :
    let k : Token := ⟨'.', "card", by decide, by decide, by decide⟩
    let pair : Pair := ⟨⟨[], "color", [], by decide, by decide, by decide⟩,
      ⟨" ", "red", "\n", by decide, by decide, by decide⟩⟩
    let style : StyleRule := ⟨⟨"\n", "a > .card", [], by decide, by decide, by decide⟩,
      [⟨" ", ".card-title", " ", by decide, by decide, by decide⟩], ⟨[], pair, none⟩, by decide⟩
    let media : Prelude := ⟨⟨[], by decide⟩, "@Media",
      ⟨[], "(min-width: 9px)", " ", by decide, by decide, by decide⟩, by decide, by decide⟩
    let frames : OtherRule := ⟨⟨" ", "@keyframes card", [], by decide, by decide, by decide⟩,
      ".card\x7b\x7d", by decide, by decide, by decide, by decide⟩
    let s : Sheet := ⟨[.conditional media [.style style, .other frames] ⟨" ", by decide⟩],
      ⟨[], by decide⟩⟩
    s.print = "@Media(min-width: 9px) \x7b\na > .card, .card-title \x7bcolor: red\n\x7d" ++
      " @keyframes card\x7b.card\x7b\x7d\x7d \x7d" ∧
    s.rules k = [⟨["@media (width >= to-rem(9px))"], "a > &", "color: red;"⟩] := by
  decide +kernel

/-- Outside of sheets an open bracket hides the comma behind it, a list that begins with `@` is no
list of selectors, and a pair without a property is left out. -/
theorem extract_outside_sheets :
    let k : Token := ⟨'.', "card", by decide, by decide, by decide⟩
    (∀ t ∈ (["a[", ".card"] : List Text), IsPart t ∧ ',' ∉ t) ∧
    (["a[", ".card"].filter fun t => k.Mentioned t).map k.relative = ["&"] ∧
    Rule.extract "a[,.card\x7bcolor:red\x7d" k.text ≠ [⟨[], "&", "color: red;"⟩] ∧
    Rule.extract "@a,.card\x7bcolor:red\x7d" k.text ≠ [⟨[], "&", "color: red;"⟩] ∧
    Rule.extract ".card\x7b:red\x7d" k.text ≠ [⟨[], "&", ": red;"⟩] := by
  decide +kernel

end Sheet

end Restyle
