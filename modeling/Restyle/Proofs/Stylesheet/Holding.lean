import Restyle.Proofs.Stylesheet.Partition
import Restyle.Proofs.Stylesheet.Steady

/-! # Which tokens have nested CSS

A stylesheet holds a rule where only conditional at-rules surround it. The
nested CSS for a token is empty exactly if no rule with a body that mentions
the token is held, although it is put together from the conditional blocks and
from the text without them.
-/

namespace Restyle

open Text Selector

namespace Token

variable {k : Token} {t u w current : Text} {c : Char} {depth : Nat}

theorem mentioned_append_cons (hc : isNameChar c = false) (hs : c ≠ k.sigil) :
    k.Mentioned (t ++ c :: u) ↔ k.Mentioned t ∨ k.Mentioned u := by
  have hmem : c ∉ k.text := by
    intro h
    rcases List.mem_cons.mp h with h | h
    · exact hs h
    · rw [k.isNameChar_of_mem h] at hc
      exact Bool.false_ne_true hc.symm
  constructor
  · rintro ⟨before, rest, he, hr⟩
    rcases List.append_eq_append_iff.mp he with ⟨z, -, hz⟩ | ⟨z, ht, hz⟩
    · rcases z with _ | ⟨d, z⟩
      · exact absurd (List.cons.inj hz).1 hs
      · exact Or.inr ⟨z, rest, (List.cons.inj hz).2, hr⟩
    · left
      rcases List.append_eq_append_iff.mp hz with ⟨y, rfl, rfl⟩ | ⟨y, hk, hy⟩
      · refine ⟨before, y, ht, ?_⟩
        rcases y with _ | ⟨d, y⟩
        · rfl
        · exact hr
      · rcases y with _ | ⟨d, y⟩
        · refine ⟨before, [], ?_, rfl⟩
          rw [ht, hk, List.append_nil, List.append_nil]
        · obtain rfl := (List.cons.inj hy).1
          exact absurd (hk ▸ List.mem_append_right z List.mem_cons_self) hmem
  · rintro (h | h)
    · exact h.append_of hc
    · rw [List.append_cons]
      exact h.append _

theorem not_mentioned_of_blank (hw : Blank w) : ¬ k.Mentioned w := by
  rintro ⟨before, rest, rfl, -⟩
  have hmem : k.sigil ∈ before ++ (k.text ++ rest) := by simp [text]
  have hblank := hw _ hmem
  rcases k.sigil_eq with h | h <;> rw [h] at hblank <;> exact absurd hblank (by decide)

theorem sigil_ne_of_blank (hc : isBlank c = true) : c ≠ k.sigil := by
  rintro rfl
  rcases k.sigil_eq with h | h <;> rw [h] at hc <;> exact absurd hc (by decide)

theorem mentioned_trim : k.Mentioned (trim t) ↔ k.Mentioned t := by
  refine ⟨.of_trim, fun h => ?_⟩
  obtain ⟨w, w', hw, hw', he⟩ := exists_eq_trim t
  have hsigil : k.sigil ∉ w := fun hmem => sigil_ne_of_blank (hw _ hmem) rfl
  rw [he, List.append_assoc, mentioned_append hsigil] at h
  rcases w' with _ | ⟨c, w'⟩
  · rwa [List.append_nil] at h
  · obtain ⟨hc, hw'⟩ := blank_cons.mp hw'
    rw [mentioned_append_cons (isNameChar_of_blank hc) (sigil_ne_of_blank hc)] at h
    exact h.resolve_right (not_mentioned_of_blank hw')

theorem exists_mem_part (h : k.Mentioned t) : ∃ p ∈ part t, k.Mentioned p := by
  have hm := mentioned_trim.mpr h
  have hne : trim t ≠ [] := by
    intro hnil
    rw [hnil] at hm
    exact k.not_mentioned_nil hm
  refine ⟨trim t, ?_, hm⟩
  rw [part]
  simp [hne]

/-- What is mentioned behind a part so far is mentioned in one of the parts. -/
theorem exists_mem_splitFrom (h : k.Mentioned (current.reverse ++ t)) :
    ∃ p ∈ splitFrom depth current t, k.Mentioned p := by
  induction t generalizing depth current with
  | nil =>
    rw [List.append_nil] at h
    exact exists_mem_part h
  | cons c t ih =>
    have hmove : k.Mentioned ((c :: current).reverse ++ t) := by
      rwa [List.reverse_cons, ← List.append_cons]
    rw [splitFrom]
    split_ifs with h₁ h₂ h₃
    · exact ih hmove
    · exact ih hmove
    · obtain ⟨rfl, -⟩ := h₃
      have hsigil : ',' ≠ k.sigil := by
        rcases k.sigil_eq with h | h <;> rw [h] <;> decide
      rcases (mentioned_append_cons (by decide) hsigil).mp h with h | h
      · obtain ⟨p, hp, hm⟩ := exists_mem_part h
        exact ⟨p, List.mem_append_left _ hp, hm⟩
      · have hrest : ∃ p ∈ splitFrom 0 [] t, k.Mentioned p := ih h
        obtain ⟨p, hp, hm⟩ := hrest
        exact ⟨p, List.mem_append_right _ hp, hm⟩
    · exact ih hmove

theorem exists_mem_splitList_iff : (∃ p ∈ splitList t, k.Mentioned p) ↔ k.Mentioned t := by
  constructor
  · rintro ⟨p, hp, hm⟩
    exact hm.of_mem_splitList hp
  · intro h
    have hempty : k.Mentioned (([] : Text).reverse ++ t) := h
    exact exists_mem_splitFrom hempty

end Token

theorem not_blank_braced (head body : Text) : ¬ Blank (braced head body) :=
  not_blank_of_mem (c := '{') (by simp [braced]) (by decide)

namespace Node

/-- A node holds a rule with a selector and a body, which only conditional at-rules surround. -/
inductive Holds : Node → Text → List Node → Prop
  | rule {selector : Text} {body : List Node} (h : selector.startsWith "@" = false) :
      Holds (.block selector body) selector body
  | inside {prelude : Text} {body : List Node} {n : Node} {selector : Text} {inner : List Node}
      (hc : (AtRule.condition? prelude).isSome = true) (hn : n ∈ body)
      (h : Holds n selector inner) : Holds (.block prelude body) selector inner

variable {s selector : Text} {body inner : List Node} {n : Node}

theorem not_holds_declaration {t : Text} : ¬ (declaration t).Holds s inner := by
  rintro ⟨⟩

theorem startsWith_of_isSome (h : (AtRule.condition? s).isSome = true) :
    s.startsWith "@" = true := by
  obtain ⟨c, hc⟩ := Option.isSome_iff_exists.mp h
  exact AtRule.startsWith_of_condition? hc

/-- A block is a rule itself, or it holds what the nodes in it hold under its condition. -/
theorem holds_block_iff : (block selector body).Holds s inner ↔
    if selector.startsWith "@" then
      (AtRule.condition? selector).isSome = true ∧ ∃ n ∈ body, n.Holds s inner
    else s = selector ∧ inner = body := by
  constructor
  · intro h
    cases h with
    | rule hat =>
      rw [hat]
      exact ⟨rfl, rfl⟩
    | inside hc hn h =>
      rw [if_pos (startsWith_of_isSome hc)]
      exact ⟨hc, _, hn, h⟩
  · split_ifs with hat
    · rintro ⟨hc, n, hn, h⟩
      exact .inside hc hn h
    · rintro ⟨rfl, rfl⟩
      exact .rule (by simpa using hat)

mutual

theorem mem_selectors_iff : ∀ n : Node, s ∈ n.selectors ↔ ∃ inner, n.Holds s inner
  | declaration t => by simp [selectors, not_holds_declaration]
  | block selector body => by
    rw [selectors]
    simp only [holds_block_iff]
    split_ifs with hat hc
    · rw [mem_selectorsOfAll_iff body]
      simp only [hc, true_and]
      constructor
      · rintro ⟨n, hn, inner, h⟩
        exact ⟨inner, n, hn, h⟩
      · rintro ⟨inner, n, hn, h⟩
        exact ⟨n, hn, inner, h⟩
    · simp [hc]
    · simp

theorem mem_selectorsOfAll_iff : ∀ ns : List Node,
    s ∈ selectorsOfAll ns ↔ ∃ n ∈ ns, ∃ inner, n.Holds s inner
  | [] => by simp [selectorsOfAll]
  | n :: ns => by
    rw [selectorsOfAll, List.mem_append, mem_selectors_iff n, mem_selectorsOfAll_iff ns]
    simp

end

theorem not_blank_of_mem_format {n : Node} {t : Text} (h : t ∈ n.format) : ¬ Blank t := by
  cases n with
  | declaration d =>
    rw [Node.format, Option.mem_toList, formatDeclaration?] at h
    split at h
    · cases h
    · dsimp only at h
      split_ifs at h
      obtain rfl := Option.some.inj h
      exact not_blank_of_mem (c := ';') (by simp) (by decide)
  | block selector body =>
    rw [Node.format] at h
    split_ifs at h
    · cases h
    · obtain rfl := List.mem_singleton.mp h
      exact not_blank_braced _ _

theorem not_blank_formatBody {body : List Node} (h : formatBody body ≠ []) :
    ¬ Blank (formatBody body) := by
  have hmem : ∀ ns : List Node, ∀ t ∈ formatAll ns, ¬ Blank t := by
    intro ns
    induction ns with
    | nil => simp [formatAll]
    | cons n ns ih =>
      rw [formatAll, List.forall_mem_append]
      exact ⟨fun t => not_blank_of_mem_format, ih⟩
  have hlines : formatAll body ≠ [] := by
    intro hnil
    rw [formatBody, hnil] at h
    exact h rfl
  obtain ⟨t, ht⟩ := List.exists_mem_of_ne_nil _ hlines
  exact not_blank_join ht (hmem body t ht)

end Node

namespace Rule

variable {k : Token} {conditions : List Text} {rules : List Rule} {r : Rule} {css token : Text}

theorem ofBlock_eq_nil_iff {selector : Text} {body : List Node} :
    ofBlock k.text conditions selector body = [] ↔
      (k.Mentioned selector → Node.formatBody body = []) := by
  have hnone : (splitList selector).filterMap (relativeTo? · k.text) = [] ↔
      ¬ k.Mentioned selector := by
    rw [k.filterMap_relativeTo?, List.map_eq_nil_iff, List.filter_eq_nil_iff,
      ← k.exists_mem_splitList_iff]
    simp
  unfold ofBlock
  dsimp only
  split_ifs with h
  · rw [Bool.or_eq_true, List.isEmpty_iff, List.isEmpty_iff, hnone] at h
    exact iff_of_true rfl fun hm => h.resolve_left (not_not_intro hm)
  · rw [Bool.or_eq_true, List.isEmpty_iff, List.isEmpty_iff, hnone, not_or, not_not] at h
    exact iff_of_false not_false fun hempty => h.2 (hempty h.1)

mutual

theorem ofNode_eq_nil_iff (conditions : List Text) : ∀ n : Node, ofNode k.text conditions n = [] ↔
    ∀ s inner, n.Holds s inner → k.Mentioned s → Node.formatBody inner = []
  | .declaration t => iff_of_true rfl fun s inner h => absurd h Node.not_holds_declaration
  | .block selector body => by
    rw [ofNode]
    simp only [Node.holds_block_iff]
    split_ifs with hat
    · cases hc : AtRule.condition? selector with
      | none => simp
      | some c =>
        dsimp only
        rw [ofNodes_eq_nil_iff (conditions ++ [c]) body]
        constructor
        · rintro h s inner ⟨-, n, hn, hh⟩
          exact h n hn s inner hh
        · rintro h n hn s inner hh
          exact h s inner ⟨rfl, n, hn, hh⟩
    · rw [ofBlock_eq_nil_iff]
      constructor
      · rintro h s inner ⟨rfl, rfl⟩
        exact h
      · exact fun h => h selector body ⟨rfl, rfl⟩

/-- Nodes yield no rules for a token exactly if every rule they hold for it has an empty body. -/
theorem ofNodes_eq_nil_iff (conditions : List Text) : ∀ ns : List Node,
    ofNodes k.text conditions ns = [] ↔
      ∀ n ∈ ns, ∀ s inner, n.Holds s inner → k.Mentioned s → Node.formatBody inner = []
  | [] => by simp [ofNodes]
  | n :: ns => by
    rw [ofNodes, List.append_eq_nil_iff, ofNode_eq_nil_iff conditions n,
      ofNodes_eq_nil_iff conditions ns, List.forall_mem_cons]

end

mutual

theorem not_blank_of_mem_ofNode (conditions : List Text) : ∀ n : Node,
    ∀ r ∈ ofNode token conditions n, ¬ Blank r.declarations
  | .declaration t => by simp [ofNode]
  | .block selector body => by
    rw [ofNode]
    split_ifs with hat
    · cases AtRule.condition? selector with
      | none => simp
      | some c => exact not_blank_of_mem_ofNodes (conditions ++ [c]) body
    · intro r hr
      obtain ⟨-, hbody, rfl⟩ := mem_ofBlock_iff.mp hr
      exact Node.not_blank_formatBody hbody

theorem not_blank_of_mem_ofNodes (conditions : List Text) : ∀ ns : List Node,
    ∀ r ∈ ofNodes token conditions ns, ¬ Blank r.declarations
  | [] => by simp [ofNodes]
  | n :: ns => by
    rw [ofNodes, List.forall_mem_append]
    exact ⟨not_blank_of_mem_ofNode conditions n, not_blank_of_mem_ofNodes conditions ns⟩

end

theorem not_blank_of_mem_plainParts (h : ∀ r ∈ rules, ¬ Blank r.declarations) {wrapRoot : Bool}
    {t : Text} (ht : t ∈ plainParts wrapRoot rules) : ¬ Blank t := by
  rcases List.mem_append.mp ht with ht | ht
  · rw [getD_groupBodies] at ht
    split_ifs at ht with hempty
    · cases ht
    · obtain rfl := List.mem_singleton.mp ht
      obtain ⟨body, hbody⟩ := List.exists_mem_of_ne_nil _ (mt List.isEmpty_iff.mpr hempty)
      refine not_blank_join hbody ?_
      rw [bodiesOf, List.mem_eraseDups] at hbody
      obtain ⟨p, hp, rfl⟩ := List.mem_map.mp hbody
      have hpair := List.mem_of_mem_filter (List.mem_of_mem_filter hp)
      obtain ⟨r, hr, he⟩ := List.mem_filterMap.mp hpair
      split_ifs at he
      obtain rfl := Option.some.inj he
      exact h r hr
  · obtain ⟨e, -, rfl⟩ := List.mem_map.mp ht
    exact not_blank_braced _ _

theorem not_blank_render (h : ∀ r ∈ rules, ¬ Blank r.declarations) (hr : r ∈ rules)
    (wrapRoot : Bool) : ¬ Blank (render rules wrapRoot) := by
  have hdepth := length_le_depth hr
  rw [render]
  by_cases hc : r.conditions = []
  · have hparts : plainParts wrapRoot rules ≠ [] := plainParts_ne_nil hr hc
    obtain ⟨t, ht⟩ := List.exists_mem_of_ne_nil _ hparts
    have hvisible := not_blank_of_mem_plainParts h ht
    cases depth rules with
    | zero =>
      rw [renderWithin_zero]
      exact not_blank_join ht hvisible
    | succ d =>
      rw [renderWithin_succ]
      exact not_blank_join (List.mem_append_left _ ht) hvisible
  · have hpos := List.length_pos_iff.mpr hc
    obtain ⟨d, hd⟩ := Nat.exists_eq_succ_of_ne_zero (Nat.ne_of_gt (hpos.trans_le hdepth))
    obtain ⟨e, he⟩ := List.exists_mem_of_ne_nil _ (groupConditions_ne_nil hr hc)
    rw [hd, renderWithin_succ]
    exact not_blank_join (List.mem_append_right _ (List.mem_map_of_mem he)) (not_blank_braced _ _)

end Rule

namespace ConditionalBlock

/-- A conditional block holds rules for a token if the node yields some. -/
theorem ofNode?_eq_none_of_ofNode {token : Text} {n : Node} (h : Rule.ofNode token [] n = []) :
    ofNode? token n = none := by
  cases n with
  | declaration t => rfl
  | block selector body =>
    rw [ofNode?]
    cases hc : AtRule.condition? selector with
    | none => rfl
    | some c =>
      rw [Rule.ofNode, if_pos (AtRule.startsWith_of_condition? hc), hc] at h
      dsimp only at h
      rw [List.nil_append, Rule.ofNodes_cons, List.map_eq_nil_iff] at h
      simp [h]

end ConditionalBlock

open ConditionalBlock in
theorem nestedCss_eq_nil_iff (css token : Text) :
    nestedCss css token = [] ↔ Rule.extract css token = [] := by
  rw [nestedCss_eq, nestedOf, trim_eq_nil_iff]
  by_cases hblocks : (Node.ofText css).filterMap (ofNode? token) = []
  · have hskips : ∀ n ∈ Node.ofText css, holds token n = false := by
      intro n hn
      rw [holds, List.filterMap_eq_nil_iff.mp hblocks n hn]
      rfl
    rw [hblocks, Snippet.remaining_eq_of_unskipped hskips, ← Rule.extract]
    constructor
    · intro hb
      by_contra hne
      obtain ⟨r, hr⟩ := List.exists_mem_of_ne_nil _ hne
      have hvisible : ¬ Blank (Rule.render (Rule.extract css token) false) :=
        Rule.not_blank_render (Rule.not_blank_of_mem_ofNodes [] _) hr false
      have hempty : (Rule.render (Rule.extract css token) false).isEmpty = false := by
        rw [List.isEmpty_eq_false_iff]
        intro hnil
        rw [hnil] at hvisible
        exact hvisible Blank.nil
      refine not_blank_join ?_ hvisible hb
      rw [hempty]
      exact List.mem_append_left _ (List.mem_singleton_self _)
    · intro hnil
      rw [hnil]
      exact Blank.nil
  · constructor
    · intro hb
      obtain ⟨e, he⟩ := List.exists_mem_of_ne_nil _ (Table.group_ne_nil hblocks)
      exact absurd hb (not_blank_join (List.mem_append_right _ (List.mem_map_of_mem he))
        (not_blank_braced _ _))
    · intro hnil
      refine absurd (List.filterMap_eq_nil_iff.mpr fun n hn => ?_) hblocks
      rw [Rule.extract, Rule.ofNodes_eq_flatMap, List.flatMap_eq_nil_iff] at hnil
      exact ofNode?_eq_none_of_ofNode (hnil n hn)

end Restyle
