import Restyle.Proofs.Selector.List
import Restyle.Proofs.Selector.Token
import Restyle.Proofs.Stylesheet.Joining
import Restyle.Stylesheet.Names

/-! # Tokens that nodes mention

The rules of a stylesheet for a token, and the names it uses, come from the
selectors of its style rules alone. Nodes whose selectors do not mention a token
may be put into a stylesheet or taken out of it without changing the token's CSS.
-/

namespace Restyle

open Text Selector

namespace Token

variable {k : Token} {t u p : Text} {sigil : Char} {name : Text}

theorem Mentioned.append_of (h : k.Mentioned t) (hu : nameGoesOn u = false) :
    k.Mentioned (t ++ u) := by
  obtain ⟨before, rest, rfl, hr⟩ := h
  refine ⟨before, rest ++ u, by simp, ?_⟩
  rcases rest with _ | ⟨c, rest⟩
  · exact hu
  · exact hr

theorem Mentioned.text_eq {own : Token} (h : k.Mentioned own.text) : k.text = own.text := by
  obtain ⟨before, rest, he, hr⟩ := h
  rcases before with _ | ⟨b, before⟩
  · rcases rest with _ | ⟨c, rest⟩
    · exact (he.trans (List.append_nil _)).symm
    · have hname : own.name = k.name ++ c :: rest := (List.cons.inj he).2
      have hc : isNameChar c = true := own.isNameChar_of_mem (by simp [hname])
      exact absurd (hr.symm.trans hc) Bool.false_ne_true
  · have hmem : k.sigil ∈ own.name := by
      rw [(List.cons.inj he).2, text]
      simp
    have hs := own.isNameChar_of_mem hmem
    rw [k.isNameChar_sigil] at hs
    exact absurd hs Bool.false_ne_true

theorem Mentioned.of_trim (h : k.Mentioned (trim t)) : k.Mentioned t := by
  obtain ⟨w, w', -, hw', he⟩ := exists_eq_trim t
  have hgoes : nameGoesOn w' = false := by
    rcases w' with _ | ⟨c, w'⟩
    · rfl
    · by_contra hc
      have hb := isBlank_of_isNameChar (Bool.not_eq_false _ ▸ hc)
      rw [(blank_cons.mp hw').1] at hb
      exact Bool.false_ne_true hb.symm
  rw [he, List.append_assoc]
  exact (h.append_of hgoes).append w

theorem Mentioned.of_mem_splitList (h : p ∈ splitList t) (hp : k.Mentioned p) : k.Mentioned t := by
  obtain ⟨before, v, after, rfl, rfl, -, hafter⟩ := standsIn_of_mem_splitList h
  have hgoes : nameGoesOn after = false := by
    rcases after with _ | ⟨c, after⟩
    · rfl
    · obtain rfl := hafter c rfl
      rfl
  exact (hp.of_trim.append_of hgoes).append before

theorem exists_of_mem_namesFrom (hs : sigil = '.' ∨ sigil = '#') {quote : Option Char}
    {brackets : Nat} (h : name ∈ namesFrom sigil quote brackets t) :
    ∃ k : Token, k.sigil = sigil ∧ k.name = name ∧ k.Mentioned t := by
  induction t generalizing quote brackets with
  | nil => cases quote <;> simp [namesFrom] at h
  | cons c t ih =>
    have hcons : ∀ {quote brackets}, name ∈ namesFrom sigil quote brackets t →
        ∃ k : Token, k.sigil = sigil ∧ k.name = name ∧ k.Mentioned (c :: t) := by
      intro quote brackets h
      obtain ⟨k, hk, hn, hm⟩ := ih h
      exact ⟨k, hk, hn, hm.append [c]⟩
    cases quote with
    | some q =>
      rw [namesFrom] at h
      exact hcons h
    | none =>
      rw [namesFrom] at h
      split_ifs at h with h₁ h₂ h₃ h₄
      · exact hcons h
      · exact hcons h
      · exact hcons h
      · rcases List.mem_append.mp h with h | h
        · obtain ⟨hname, rfl⟩ : isName sigil (t.takeWhile isNameChar) = true ∧
              name = t.takeWhile isNameChar := by
            by_cases hn : isName sigil (t.takeWhile isNameChar) = true
            · rw [if_pos hn, List.mem_singleton] at h
              exact ⟨hn, h⟩
            · rw [if_neg hn] at h
              exact absurd h List.not_mem_nil
          obtain ⟨rfl, -⟩ := h₄
          have hne : t.takeWhile isNameChar ≠ [] := by
            intro he
            rw [he] at hname
            exact absurd hname (by simp [isName])
          refine ⟨⟨c, t.takeWhile isNameChar, hs, hne, List.all_takeWhile⟩, rfl, rfl, [],
            t.dropWhile isNameChar, ?_, ?_⟩
          · exact congrArg (c :: ·) List.takeWhile_append_dropWhile.symm
          · rcases hd : t.dropWhile isNameChar with _ | ⟨d, u⟩
            · rfl
            · have hhead := List.head?_dropWhile_not isNameChar t
              rw [hd] at hhead
              have hstop : isNameChar d = false := by simpa using hhead
              exact hstop
        · exact hcons h
      · exact hcons h

/-- The names after a sigil are those of tokens that the selector mentions. -/
theorem exists_of_mem_names (hs : sigil = '.' ∨ sigil = '#') (h : name ∈ names sigil t) :
    ∃ k : Token, k.sigil = sigil ∧ k.name = name ∧ k.Mentioned t :=
  exists_of_mem_namesFrom hs h

end Token

namespace Node

mutual

/-- The selectors of the style rules that only conditional at-rules surround. -/
def selectors : Node → List Text
  | declaration _ => []
  | block selector body =>
    if selector.startsWith "@" then
      if (AtRule.condition? selector).isSome then selectorsOfAll body else []
    else [selector]

def selectorsOfAll : List Node → List Text
  | [] => []
  | n :: ns => n.selectors ++ selectorsOfAll ns

end

theorem selectorsOfAll_append (ns ms : List Node) :
    selectorsOfAll (ns ++ ms) = selectorsOfAll ns ++ selectorsOfAll ms := by
  induction ns with
  | nil => rfl
  | cons n ns ih => rw [List.cons_append, selectorsOfAll, ih, selectorsOfAll, List.append_assoc]

theorem mem_selectorsOfAll {s : Text} {ns : List Node} :
    s ∈ selectorsOfAll ns ↔ ∃ n ∈ ns, s ∈ n.selectors := by
  induction ns with
  | nil => simp [selectorsOfAll]
  | cons n ns ih => simp [selectorsOfAll, ih]

mutual

theorem names_eq (sigil : Char) : ∀ n : Node,
    n.names sigil = n.selectors.flatMap (Selector.names sigil)
  | declaration t => rfl
  | block selector body => by
    rw [names, selectors]
    split_ifs
    · exact namesOfAll_eq sigil body
    · rfl
    · exact (List.flatMap_singleton _ _).symm

theorem namesOfAll_eq (sigil : Char) : ∀ ns : List Node,
    namesOfAll sigil ns = (selectorsOfAll ns).flatMap (Selector.names sigil)
  | [] => rfl
  | n :: ns => by
    rw [namesOfAll, names_eq sigil n, namesOfAll_eq sigil ns, selectorsOfAll, List.flatMap_append]

end

theorem namesOfAll_append (sigil : Char) (ns ms : List Node) :
    namesOfAll sigil (ns ++ ms) = namesOfAll sigil ns ++ namesOfAll sigil ms := by
  simp only [namesOfAll_eq, selectorsOfAll_append, List.flatMap_append]

/-- The selectors of some nodes mention one token at most. -/
def MentionOnly (own : Text) (ns : List Node) : Prop :=
  ∀ s ∈ selectorsOfAll ns, ∀ k : Token, k.Mentioned s → k.text = own

variable {own : Text} {ns : List Node}

theorem MentionOnly.not_mentioned (h : MentionOnly own ns) {k : Token} (hk : k.text ≠ own) :
    ∀ s ∈ selectorsOfAll ns, ¬ k.Mentioned s :=
  fun s hs hm => hk (h s hs k hm)

theorem MentionOnly.eq_of_mem_names (h : MentionOnly own ns) {sigil : Char}
    (hs : sigil = '.' ∨ sigil = '#') {name : Text}
    (hname : name ∈ namesOfAll sigil ns) : sigil :: name = own := by
  rw [namesOfAll_eq] at hname
  obtain ⟨s, hmem, hname⟩ := List.mem_flatMap.mp hname
  obtain ⟨k, rfl, rfl, hm⟩ := Token.exists_of_mem_names hs hname
  exact h s hmem k hm

end Node

theorem AtRule.startsWith_of_condition? {selector condition : Text}
    (h : AtRule.condition? selector = some condition) : selector.startsWith "@" = true := by
  have hhead : (lower (AtRule.splitKeyword selector).1).head? = some '@' := by
    rw [AtRule.condition?] at h
    dsimp only at h
    split_ifs at h with h₁ h₂
    · rcases h₁ with h₁ | h₁ <;> rw [h₁] <;> rfl
    · rw [h₂]
      rfl
  rw [lower, List.head?_map] at hhead
  obtain ⟨c, hc, hlower⟩ := Option.map_eq_some_iff.mp hhead
  obtain rfl : c = '@' := eq_of_toLower_eq (by decide) hlower
  obtain ⟨t, ht⟩ := List.head?_eq_some_iff.mp hc
  have hsplit : (AtRule.splitKeyword selector).1 ++ (AtRule.splitKeyword selector).2 = selector :=
    List.takeWhile_append_dropWhile
  rw [← hsplit, ht]
  rfl

namespace Rule

variable {token : Text} {conditions : List Text} {ns ms : List Node}

theorem ofNodes_append (token : Text) (conditions : List Text) (ns ms : List Node) :
    ofNodes token conditions (ns ++ ms) =
      ofNodes token conditions ns ++ ofNodes token conditions ms := by
  induction ns with
  | nil => rfl
  | cons n ns ih => rw [List.cons_append, ofNodes, ih, ofNodes, List.append_assoc]

theorem mem_ofBlock_iff {r : Rule} {selector : Text} {body : List Node} :
    r ∈ ofBlock token conditions selector body ↔
      (splitList selector).filterMap (relativeTo? · token) ≠ [] ∧ Node.formatBody body ≠ [] ∧
        r = ⟨conditions, join ", " ((splitList selector).filterMap (relativeTo? · token)),
          Node.formatBody body⟩ := by
  rw [ofBlock]
  split_ifs with h
  · rw [Bool.or_eq_true, List.isEmpty_iff, List.isEmpty_iff] at h
    exact iff_of_false List.not_mem_nil fun hr => h.elim hr.1 hr.2.1
  · rw [Bool.or_eq_true, List.isEmpty_iff, List.isEmpty_iff, not_or] at h
    rw [List.mem_singleton, and_iff_right h.1, and_iff_right h.2]

theorem ofBlock_eq_nil (k : Token) (conditions : List Text) {selector : Text} (body : List Node)
    (h : ¬ k.Mentioned selector) : ofBlock k.text conditions selector body = [] := by
  have hnil : (splitList selector).filterMap (relativeTo? · k.text) = [] := by
    rw [k.filterMap_relativeTo?, List.map_eq_nil_iff, List.filter_eq_nil_iff]
    intro p hp hm
    exact h (.of_mem_splitList hp (of_decide_eq_true hm))
  simp [ofBlock, hnil]

mutual

theorem ofNode_eq_nil (k : Token) (conditions : List Text) : ∀ n : Node,
    (∀ s ∈ n.selectors, ¬ k.Mentioned s) → ofNode k.text conditions n = []
  | .declaration t, _ => rfl
  | .block selector body, h => by
    rw [ofNode]
    rw [Node.selectors] at h
    by_cases ha : selector.startsWith "@" = true
    · rw [if_pos ha] at h ⊢
      cases hc : AtRule.condition? selector with
      | none => rfl
      | some c =>
        rw [hc, Option.isSome_some, if_pos rfl] at h
        exact ofNodes_eq_nil k _ body h
    · rw [if_neg ha] at h ⊢
      exact ofBlock_eq_nil k conditions body (h selector List.mem_cons_self)

theorem ofNodes_eq_nil (k : Token) (conditions : List Text) : ∀ ns : List Node,
    (∀ s ∈ Node.selectorsOfAll ns, ¬ k.Mentioned s) → ofNodes k.text conditions ns = []
  | [], _ => rfl
  | n :: ns, h => by
    rw [Node.selectorsOfAll] at h
    rw [ofNodes, ofNode_eq_nil k conditions n fun s hs => h s (List.mem_append_left _ hs),
      ofNodes_eq_nil k conditions ns fun s hs => h s (List.mem_append_right _ hs)]
    rfl

end

end Rule

end Restyle
