import Restyle.Proofs.Selector.Token
import Restyle.Proofs.Text.Blank

/-! # Complex selectors

A complex selector is a chain of compounds joined by combinators. It is spelled
with any white space around the combinators; white space alone stands for a
descendant. Inside brackets, quotes and behind a backslash a compound may have
any character.
-/

namespace Restyle.Selector

open Text

/-- Whether a text ends a compound that has open brackets and perhaps an open quote. -/
def endsCompound : Nat → Option Char → Text → Bool
  | depth, quote, [] => depth == 0 && quote.isNone
  | depth, quote, '\\' :: _ :: t => endsCompound depth quote t
  | depth, some quote, c :: t => endsCompound depth (if c = quote then none else some quote) t
  | depth, none, c :: t =>
    if c = '"' ∨ c = '\'' then endsCompound depth (some c) t
    else if c = '(' ∨ c = '[' then endsCompound (depth + 1) none t
    else if c = ')' ∨ c = ']' then depth != 0 && endsCompound (depth - 1) none t
    else if depth = 0 ∧ (isBlank c ∨ isCombinator c ∨ c = ',') then false
    else endsCompound depth none t

structure Compound where
  text : Text
  ne_nil : text ≠ []
  ends : endsCompound 0 none text = true

inductive Combinator where
  | descendant
  | visible (c : Char)

def Combinator.Written : Combinator → Text → Prop
  | descendant, gap => gap ≠ [] ∧ Blank gap
  | visible c, gap => isCombinator c = true ∧ ∃ w w', Blank w ∧ Blank w' ∧ gap = w ++ c :: w'

/-- A compound and the compounds that follow it, each behind a combinator. -/
structure ComplexSelector where
  head : Compound
  links : List (Combinator × Compound)

/-- A text spells combinators and the compounds behind them. -/
def SpellsLinks : List (Combinator × Compound) → Text → Prop
  | [], t => t = []
  | (o, c) :: links, t =>
    ∃ gap rest, o.Written gap ∧ SpellsLinks links rest ∧ t = gap ++ (c.text ++ rest)

def ComplexSelector.Spells (x : ComplexSelector) (t : Text) : Prop :=
  ∃ rest, SpellsLinks x.links rest ∧ t = x.head.text ++ rest

def isBoundary (c : Char) : Bool :=
  isBlank c || isCombinator c

variable {x : ComplexSelector} {links : List (Combinator × Compound)} {k : Token} {s t u w raw : Text}
  {c : Char}

theorem not_isBlank_of_isCombinator (h : isCombinator c = true) : isBlank c = false := by
  simp only [isCombinator, Bool.or_eq_true, beq_iff_eq] at h
  rcases h with (rfl | rfl) | rfl <;> decide

theorem endsCompound_boundary (h : isBoundary c = true) (t : Text) :
    endsCompound 0 none (c :: t) = false := by
  have hc : isBlank c = true ∨ isCombinator c = true := by simpa [isBoundary] using h
  have hne {d : Char} (hd : isBoundary d = false) : c ≠ d := by
    rintro rfl
    exact Bool.false_ne_true (hd.symm.trans h)
  have hbackslash : ∀ d u, c = '\\' → t = d :: u → False :=
    fun _ _ he _ => hne (by decide) he
  rw [endsCompound.eq_4 _ _ _ hbackslash,
    if_neg (by simp [hne (d := '"') (by decide), hne (d := '\'') (by decide)]),
    if_neg (by simp [hne (d := '(') (by decide), hne (d := '[') (by decide)]),
    if_neg (by simp [hne (d := ')') (by decide), hne (d := ']') (by decide)]),
    if_pos ⟨rfl, hc.imp_right Or.inl⟩]

theorem Compound.exists_text (c : Compound) :
    ∃ d t, c.text = d :: t ∧ isBoundary d = false := by
  obtain ⟨d, t, h⟩ := List.exists_cons_of_ne_nil c.ne_nil
  refine ⟨d, t, h, ?_⟩
  by_contra hd
  have he := c.ends
  rw [h, endsCompound_boundary (by simpa using hd)] at he
  exact Bool.false_ne_true he

theorem endsCompound_cons (hb : isBoundary c = false)
    (hc : c ∉ ['\\', '"', '\'', '(', '[', ')', ']', ',']) (t : Text) :
    endsCompound 0 none (c :: t) = endsCompound 0 none t := by
  simp only [List.mem_cons, List.not_mem_nil, or_false, not_or] at hc
  have hb' : isBlank c = false ∧ isCombinator c = false := by simpa [isBoundary] using hb
  rw [endsCompound.eq_4 _ _ _ fun _ _ he _ => hc.1 he]
  simp [hc, hb']

theorem isBoundary_of_mem_text (hc : c ∈ k.text) :
    isBoundary c = false ∧ c ∉ ['\\', '"', '\'', '(', '[', ')', ']', ',', '&'] := by
  rcases List.mem_cons.mp hc with rfl | hc
  · rcases k.sigil_eq with h | h <;> rw [h] <;> decide
  · have hn := k.isNameChar_of_mem hc
    have hne {d : Char} (hd : isNameChar d = false) : c ≠ d := by
      rintro rfl
      exact Bool.false_ne_true (hd.symm.trans hn)
    constructor
    · simp [isBoundary, isBlank_of_isNameChar hn, isCombinator, hne (d := '>') (by decide),
        hne (d := '+') (by decide), hne (d := '~') (by decide)]
    · exact notMem_of_all (p := fun d => !isNameChar d) (by decide) (by simp [hn])

theorem endsCompound_text_append (k : Token) (u : Text) :
    endsCompound 0 none (k.text ++ u) = endsCompound 0 none u := by
  have ht : ∀ c ∈ k.text, _ := fun c hc => isBoundary_of_mem_text hc
  generalize k.text = t at ht
  induction t with
  | nil => rfl
  | cons c t ih =>
    have hc := ht c List.mem_cons_self
    rw [List.cons_append, endsCompound_cons hc.1 (fun h => hc.2 ?_),
      ih fun d hd => ht d (List.mem_cons_of_mem c hd)]
    simp only [List.mem_cons, List.not_mem_nil, or_false] at h ⊢
    tauto

theorem Combinator.Written.exists_boundary {o : Combinator} {gap : Text} (h : o.Written gap) :
    ∃ c t, gap = c :: t ∧ isBoundary c = true := by
  cases o with
  | descendant =>
    obtain ⟨c, t, rfl⟩ := List.exists_cons_of_ne_nil h.1
    exact ⟨c, t, rfl, by simp [isBoundary, (blank_cons.mp h.2).1]⟩
  | visible d =>
    obtain ⟨hd, w, w', hw, -, rfl⟩ := h
    rcases w with _ | ⟨c, w⟩
    · exact ⟨d, w', rfl, by simp [isBoundary, hd]⟩
    · exact ⟨c, w ++ d :: w', rfl, by simp [isBoundary, (blank_cons.mp hw).1]⟩

theorem SpellsLinks.exists_boundary (h : SpellsLinks links t) (hne : t ≠ []) :
    ∃ c u, t = c :: u ∧ isBoundary c = true := by
  rcases links with _ | ⟨⟨o, d⟩, links⟩
  · exact absurd h hne
  · obtain ⟨gap, rest, ho, -, rfl⟩ := h
    obtain ⟨c, u, rfl, hc⟩ := ho.exists_boundary
    exact ⟨c, _, rfl, hc⟩

theorem ComplexSelector.Spells.head_eq (h : x.Spells (k.text ++ c :: raw)) (hc : isBoundary c = true) :
    x.head.text = k.text ∧ SpellsLinks x.links (c :: raw) := by
  obtain ⟨rest, hrest, he⟩ := h
  rcases List.append_eq_append_iff.mp he.symm with ⟨a, hk, hr⟩ | ⟨a, hh, hr⟩
  · rcases a with _ | ⟨d, a⟩
    · rw [List.append_nil] at hk
      rw [hr] at hrest
      exact ⟨hk.symm, hrest⟩
    · obtain ⟨d', u, hd', hb⟩ := hrest.exists_boundary (by simp [hr])
      rw [hr] at hd'
      obtain rfl : d = d' := (List.cons.inj hd').1
      have hmem : d ∈ k.text := by simp [hk]
      exact absurd hb (by simp [(isBoundary_of_mem_text hmem).1])
  · rcases a with _ | ⟨d, a⟩
    · rw [List.append_nil] at hh
      rw [List.nil_append] at hr
      exact ⟨hh, hr ▸ hrest⟩
    · obtain rfl : c = d := (List.cons.inj hr).1
      have hends := x.head.ends
      rw [hh, endsCompound_text_append, endsCompound_boundary hc] at hends
      exact absurd hends Bool.false_ne_true

theorem trimStart_cons_of_not_isBoundary (hc : isBoundary c = false) (t : Text) :
    trimStart (c :: t) = c :: t := by
  refine trimStart_cons_of_not_blank ?_ t
  simp only [isBoundary, Bool.or_eq_false_iff] at hc
  exact hc.1

theorem trimStart_compound_append (c : Compound) (t : Text) :
    trimStart (c.text ++ t) = c.text ++ t := by
  obtain ⟨d, u, hd, hb⟩ := c.exists_text
  rw [hd, List.cons_append, trimStart_cons_of_not_isBoundary hb]

theorem SpellsLinks.cases_cons (h : SpellsLinks links (w ++ c :: t)) (hw : Blank w)
    (hc : isBlank c = false) : ∃ o d rest links', links = (o, d) :: links' ∧
      SpellsLinks links' rest ∧
      (o = .descendant ∧ c :: t = d.text ++ rest ∨
        o = .visible c ∧ isCombinator c = true ∧ trimStart t = d.text ++ rest) := by
  rcases links with _ | ⟨⟨o, d⟩, links⟩
  · simp [SpellsLinks] at h
  · obtain ⟨gap, rest, ho, hrest, he⟩ := h
    have ht := congrArg trimStart he
    rw [trimStart_append hw, trimStart_cons_of_not_blank hc] at ht
    refine ⟨o, d, rest, links, rfl, hrest, ?_⟩
    cases o with
    | descendant =>
      rw [trimStart_append ho.2, trimStart_compound_append] at ht
      exact Or.inl ⟨rfl, ht⟩
    | visible e =>
      obtain ⟨hv, w₁, w₂, hw₁, hw₂, rfl⟩ := ho
      rw [List.append_assoc, List.cons_append, trimStart_append hw₁,
        trimStart_cons_of_not_blank (not_isBlank_of_isCombinator hv)] at ht
      obtain ⟨rfl, rfl⟩ := List.cons.inj ht
      rw [trimStart_append hw₂, trimStart_compound_append]
      exact Or.inr ⟨rfl, hv, rfl⟩

theorem SpellsLinks.respace_visible (h : SpellsLinks links (w ++ c :: t)) (hw : Blank w)
    (hc : isCombinator c = true) :
    trimStart t ≠ [] ∧ SpellsLinks links (' ' :: c :: ' ' :: trimStart t) := by
  have hspace : Blank [' '] := by decide
  obtain ⟨o, d, rest, links, rfl, hrest, ⟨-, hd⟩ | ⟨rfl, -, hd⟩⟩ :=
    h.cases_cons hw (not_isBlank_of_isCombinator hc)
  · obtain ⟨e, u, he, hb⟩ := d.exists_text
    rw [he] at hd
    obtain rfl : c = e := (List.cons.inj hd).1
    simp [isBoundary, hc] at hb
  · rw [hd]
    refine ⟨by simp [d.ne_nil], ?_⟩
    exact ⟨[' ', c, ' '], rest, ⟨hc, [' '], [' '], hspace, hspace, rfl⟩, hrest, rfl⟩

theorem SpellsLinks.respace_descendant (h : SpellsLinks links (w ++ c :: t)) (hw : Blank w)
    (hc : isBoundary c = false) : SpellsLinks links (' ' :: c :: t) := by
  have hc' : isBlank c = false ∧ isCombinator c = false := by simpa [isBoundary] using hc
  obtain ⟨o, d, rest, links, rfl, hrest, ⟨rfl, hd⟩ | ⟨-, hv, -⟩⟩ := h.cases_cons hw hc'.1
  · rw [hd]
    exact ⟨[' '], rest, ⟨by simp, by decide⟩, hrest, rfl⟩
  · simp [hc'.2] at hv

def visible (t : Text) : Text :=
  t.filter (!isBlank ·)

theorem visible_append (t u : Text) : visible (t ++ u) = visible t ++ visible u :=
  List.filter_append ..

theorem visible_of_blank (hw : Blank w) : visible w = [] := by
  rw [visible, List.filter_eq_nil_iff]
  intro c hc
  simp [hw c hc]

theorem Combinator.Written.visible_eq {o : Combinator} {gap gap' : Text} (h : o.Written gap)
    (h' : o.Written gap') : Selector.visible gap = Selector.visible gap' := by
  cases o with
  | descendant => rw [visible_of_blank h.2, visible_of_blank h'.2]
  | visible c =>
    have heq {gap : Text} (h : (Combinator.visible c).Written gap) :
        Selector.visible gap = [c] := by
      obtain ⟨hc, w, w', hw, hw', rfl⟩ := h
      rw [← List.singleton_append, visible_append, visible_append, visible_of_blank hw,
        visible_of_blank hw']
      simp [Selector.visible, not_isBlank_of_isCombinator hc]
    rw [heq h, heq h']

theorem SpellsLinks.visible_eq (ht : SpellsLinks links t) (hu : SpellsLinks links u) :
    visible t = visible u := by
  induction links generalizing t u with
  | nil => rw [show t = [] from ht, show u = [] from hu]
  | cons link links ih =>
    obtain ⟨gap, rest, ho, hrest, rfl⟩ := ht
    obtain ⟨gap', rest', ho', hrest', rfl⟩ := hu
    simp only [visible_append, ho.visible_eq ho', ih hrest hrest']

/-- Spellings of a selector differ in white space only. -/
theorem ComplexSelector.Spells.visible_eq (ht : x.Spells t) (hu : x.Spells u) : visible t = visible u := by
  obtain ⟨rest, hrest, rfl⟩ := ht
  obtain ⟨rest', hrest', rfl⟩ := hu
  rw [visible_append, visible_append, hrest.visible_eq hrest']

end Restyle.Selector
