import Restyle.Proofs.Selector.Nesting
import Restyle.Proofs.Stylesheet.Location
import Restyle.Proofs.Stylesheet.Nested
import Restyle.Proofs.Stylesheet.Reading
import Restyle.Proofs.Text.Lines

/-! # Stylesheets of one rule

A head and a body in braces are read as one block, if the braces in the body
balance and nothing in it is left open. A rule for an id, with nothing else in
its selector, becomes the style of this id.
-/

namespace Restyle

open Text Lexeme

def blocksBehind? : Nat → List Lexeme → Option Nat
  | depth, [] => some depth
  | depth, l :: ls =>
    if l = .plain '{' then blocksBehind? (depth + 1) ls
    else if l = .plain '}' then if depth = 0 then none else blocksBehind? (depth - 1) ls
    else blocksBehind? depth ls

/-- What may stand between the braces of a rule, with declarations or blocks to print. -/
structure IsBody (t : Text) : Prop where
  closed : ∀ l ∈ (scan t).getLast?, l.closed = true
  balanced : blocksBehind? 0 (scan t) = some 0
  prints : trim (Node.formatBody (Node.ofText t)) ≠ []

instance (t : Text) : Decidable (IsBody t) :=
  decidable_of_iff ((∀ l ∈ (scan t).getLast?, l.closed = true) ∧
      blocksBehind? 0 (scan t) = some 0 ∧ trim (Node.formatBody (Node.ofText t)) ≠ [])
    ⟨fun h => ⟨h.1, h.2.1, h.2.2⟩, fun h => ⟨h.closed, h.balanced, h.prints⟩⟩

namespace Draft

variable {d : Draft} {ls : List Lexeme} {n : Nat} {t : Text}

theorem outer_step_of_not_brace {l : Lexeme} (ho : l ≠ .plain '{') (hc : l ≠ .plain '}') :
    (d.step l).outer = d.outer := by
  cases l with
  | quoted t closed => rfl
  | comment t closed => rfl
  | plain c => exact outer_step_of_ne d (fun h => ho (h ▸ rfl)) fun h => hc (h ▸ rfl)

/-- Balanced braces are read inside a block as if nothing stood around them. -/
theorem read_inside (h : blocksBehind? d.outer.length ls = some n) (f : Frame) :
    (d.inside f).read ls = (d.read ls).inside f ∧ (d.read ls).outer.length = n := by
  -- The braces are counted from as many open blocks as the draft has, so none closes the outer one.
  induction ls generalizing d with
  | nil => exact ⟨rfl, Option.some.inj h⟩
  | cons l ls ih =>
    have hread : ∀ d : Draft, d.read (l :: ls) = (d.step l).read ls := fun _ => rfl
    rw [blocksBehind?] at h
    rw [hread, hread]
    split_ifs at h with ho hc hz
    · subst ho
      rw [step_inside fun _ => by simp]
      exact ih h
    · subst hc
      rw [step_inside fun hnil => absurd (congrArg List.length hnil) hz]
      refine ih ?_
      have hclose : (d.step (.plain '}')).outer = d.outer.tail := outer_closeBlock d
      rwa [hclose, List.length_tail]
    · rw [step_inside fun _ => hc]
      refine ih ?_
      rwa [outer_step_of_not_brace ho hc]

end Draft

variable {t u : Text}

theorem Segment.scan_block (ht : Segment t) (hu : IsBody u) :
    scan (t ++ '{' :: u ++ ['}']) = (t ++ ['{']).map .plain ++ (scan u ++ [.plain '}']) := by
  have hhead : scan (t ++ ['{']) = (t ++ ['{']).map .plain :=
    (ht.plain.append_cons .nil (by decide)).scan_eq
  have hlast : scan ['}'] = [.plain '}'] := by decide
  have hbody : Apart (scan u) ['}'] := fun l hl => ⟨hu.closed l hl, fun _ => by simp⟩
  have hopen : Apart (scan (t ++ ['{'])) (u ++ ['}']) := by
    intro l hl
    rw [hhead, List.map_append, List.map_singleton, List.getLast?_concat] at hl
    obtain rfl := Option.some.inj hl
    exact ⟨rfl, by simp⟩
  have hsplit : t ++ '{' :: u ++ ['}'] = (t ++ ['{']) ++ (u ++ ['}']) := by simp
  rw [hsplit, scan_append hopen, scan_append hbody, hhead, hlast]

theorem Segment.ofText_block (ht : Segment t) (hu : IsBody u) :
    Node.ofText (t ++ '{' :: u ++ ['}']) = [.block (trim t) (Node.ofText u)] := by
  have hopen : ({} : Draft).read ((t ++ ['{']).map .plain) = ({} : Draft).inside ⟨[], trim t⟩ :=
    Draft.readText_open ht [] []
  obtain ⟨hinside, houter⟩ := Draft.read_inside (d := {}) hu.balanced ⟨[], trim t⟩
  rw [List.length_eq_zero_iff] at houter
  rw [Node.ofText_eq_finish, Node.ofText_eq_finish u, ht.scan_block hu, Draft.read_append, hopen,
    Draft.read_append, hinside]
  generalize ({} : Draft).read (scan u) = d at houter ⊢
  have hclose : (d.inside ⟨[], trim t⟩).read [.plain '}'] =
      { nodes := [.block (trim t) d.flushed.reverse] } := by
    have ho : (d.inside ⟨[], trim t⟩).outer = [⟨[], trim t⟩] := by simp [Draft.inside, houter]
    exact Draft.closeBlock_of_cons ho
  rw [hclose]
  simp [Draft.finish, Draft.flushed, houter]

namespace Token

variable {k : Token} {css : Text} {body : List Node}

theorem startsWith_text (k : Token) : k.text.startsWith "@" = false := by
  rcases k.sigil_eq with h | h
  · rw [text, h]
    rfl
  · rw [text, h]
    rfl

theorem segment_text (k : Token) : Segment k.text := by
  refine Segment.of_forall fun c hc hmem => ?_
  rcases List.mem_cons.mp hc with rfl | hc
  · rcases k.sigil_eq with h | h <;> rw [h] at hmem <;> exact absurd hmem (by decide)
  · exact notMem_of_all (p := fun d => !isNameChar d) (by decide) (by simp [k.isNameChar_of_mem hc])
      hmem

theorem trimmed_text (k : Token) : Trimmed k.text := by
  have hblank : ∀ c ∈ k.text, isBlank c = false := by
    intro c hc
    rcases List.mem_cons.mp hc with rfl | hc
    · rcases k.sigil_eq with h | h <;> rw [h] <;> decide
    · exact isBlank_of_isNameChar (k.isNameChar_of_mem hc)
  exact ⟨fun c hc => hblank c (List.mem_of_head? hc), fun c hc => hblank c (List.mem_of_getLast? hc)⟩

theorem condition?_text (k : Token) : AtRule.condition? k.text = none := by
  cases h : AtRule.condition? k.text with
  | none => rfl
  | some condition =>
    have hat := AtRule.startsWith_of_condition? h
    rw [k.startsWith_text] at hat
    exact absurd hat Bool.false_ne_true

theorem relativeTo?_text (k : Token) : Selector.relativeTo? k.text k.text = some ['&'] := by
  have h : Selector.relativeTo? (k.text ++ []) k.text = some ['&'] := relativeTo?_of_blank rfl rfl
  rwa [List.append_nil] at h

theorem ofNodes_block (k : Token) (body : List Node) :
    Rule.ofNodes k.text [] [.block k.text body] =
      if (Node.formatBody body).isEmpty then [] else [⟨[], "&", Node.formatBody body⟩] := by
  have hsplit : Selector.splitList k.text = [k.text] := by
    rw [Selector.splitList_of_depthBehind? (k.depthBehind?_text 0),
      Selector.part_of_trimmed k.trimmed_text k.text_ne_nil]
  have hselectors : [k.text].filterMap (Selector.relativeTo? · k.text) = [['&']] := by
    rw [List.filterMap_cons_some (f := (Selector.relativeTo? · k.text)) k.relativeTo?_text,
      List.filterMap_nil]
  rw [Rule.ofNodes, Rule.ofNodes, List.append_nil, Rule.ofNode, k.startsWith_text,
    if_neg Bool.false_ne_true, Rule.ofBlock, hsplit, hselectors]
  rfl

theorem render_root (body : Text) : Rule.render [⟨[], "&", body⟩] false = body := by
  have hjoin : Rule.render [⟨[], "&", body⟩] false = join "\n" [join "\n" [body]] := rfl
  rw [hjoin, join_singleton, join_singleton]

theorem nestedCss_block (h : Node.ofText css = [.block k.text body]) :
    nestedCss css k.text = trim (Node.formatBody body) := by
  have hnode : ConditionalBlock.ofNode? k.text (.block k.text body) = none := by
    rw [ConditionalBlock.ofNode?, k.condition?_text]
  have hremaining : remaining (ConditionalBlock.holds k.text) css = [.block k.text body] := by
    rw [Snippet.remaining_eq_of_unskipped, h]
    rw [h, List.forall_mem_singleton, ConditionalBlock.holds, hnode]
    rfl
  rw [nestedCss_eq, nestedOf, h, hremaining, List.filterMap_cons_none hnode, List.filterMap_nil]
  by_cases hempty : Node.formatBody body = []
  · rw [k.ofNodes_block, hempty]
    rfl
  · have hrules := k.ofNodes_block body
    rw [if_neg (by simpa using hempty)] at hrules
    rw [hrules, render_root]
    simp [hempty, Table.group]

theorem namesFrom_eq_nil {sigil : Char} (hs : isNameChar sigil = false)
    (ht : ∀ c ∈ t, isNameChar c = true) : Selector.namesFrom sigil none 0 t = [] := by
  induction t with
  | nil => rfl
  | cons c t ih =>
    obtain ⟨hc, ht⟩ := List.forall_mem_cons.mp ht
    have hne : ∀ d, isNameChar d = false → c ≠ d := by
      rintro d hd rfl
      exact Bool.false_ne_true (hd.symm.trans hc)
    simp only [Selector.namesFrom, hne _ hs, hne '"' (by decide), hne '\'' (by decide),
      hne '[' (by decide), hne ']' (by decide), or_self, false_and, if_false, ih ht]

theorem names_text (k : Token) (hname : Selector.isName k.sigil k.name = true) :
    Selector.names k.sigil k.text = [k.name] := by
  have htake : k.name.takeWhile isNameChar = k.name :=
    List.takeWhile_eq_self_iff.mpr fun c hc => k.isNameChar_of_mem hc
  have hrest := namesFrom_eq_nil k.isNameChar_sigil fun c hc => k.isNameChar_of_mem (c := c) hc
  have hne : k.sigil ∉ ['"', '\'', '[', ']'] := by
    rcases k.sigil_eq with h | h <;> rw [h] <;> decide
  simp only [List.mem_cons, List.not_mem_nil, or_false, not_or] at hne
  simp [Selector.names, text, Selector.namesFrom, hne, htake, hname, hrest]

theorem selectorNames_block (h : Node.ofText css = [.block k.text body])
    (hname : Selector.isName k.sigil k.name = true) : selectorNames css k.sigil = [k.name] := by
  rw [selectorNames, h, Node.namesOfAll, Node.namesOfAll, List.append_nil, Node.names,
    k.startsWith_text, if_neg Bool.false_ne_true, k.names_text hname]
  rfl

/-- A stylesheet of one rule for an id has the style of this id, and no other. -/
theorem idStyles_block (hk : k.sigil = '#') (hname : Selector.isName k.sigil k.name = true)
    (h : Node.ofText (Selector.renameIds css) = [.block k.text body])
    (hbody : trim (Node.formatBody body) ≠ []) :
    idStyles css = [(Style.elementId k.name,
      Style.ofSelector (Style.elementId k.name) k.text (Node.formatBody body))] := by
  have hnames := selectorNames_block h hname
  have hcss := nestedCss_block h
  have htext : '#' :: k.name = k.text := by rw [text, hk]
  rw [hk] at hnames
  simp only [idStyles, hnames, List.foldl_cons, List.foldl_nil, htext, hcss,
    List.isEmpty_eq_false_iff.mpr hbody, Bool.false_eq_true, if_false]
  rw [Style.ofSelector, Style.ofSelector, (trimmed_trim _).trim_eq]
  rfl

end Token

end Restyle
