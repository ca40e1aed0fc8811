import Restyle.Conversion.Suffix
import Restyle.Proofs.Selector.List
import Restyle.Proofs.Text.Lines

/-! # Suffixes of settings and of selectors

A selector that follows a class is nested in two places, behind the key of a
setting and in a stylesheet. Both write the same nested selectors, but a
setting does not keep the white space in front of the name of an element.
-/

namespace Restyle.Suffix

open Text Selector

variable {t raw className : Text} {parts : List Text} {f g : Text → Text}

/-- A selector that begins with the name of an element, or with `*`. -/
def namesElement : Text → Bool
  | [] => false
  | c :: _ => c.isAlpha || c == '*'

theorem trimmed_of_mem_splitList (h : t ∈ splitList raw) : Trimmed t := by
  obtain ⟨-, v, -, -, rfl, -⟩ := standsIn_of_mem_splitList h
  exact trimmed_trim v

theorem combined?_eq_none {c : Char} (hc : isCombinator c = false) : combined? (c :: t) = none := by
  simp [combined?, hc]

theorem combined?_of_trimmed {c : Char} (hc : isCombinator c = true) (ht : Trimmed (c :: t)) :
    combined? (c :: t) = some (trimEnd ("& " ++ c :: ' ' :: trimStart t)) := by
  rw [combined?, if_pos hc]
  dsimp only
  rcases hrest : trimStart t with _ | ⟨d, u⟩
  · have hvisible : isBlank c = false := ht.1 c rfl
    have hcut : ("& " : Text) ++ [c, ' '] = "& " ++ c :: [' '] := rfl
    rw [hcut, trimEnd_append_cons hvisible]
    rfl
  · have hlast : ∀ e ∈ (("& " : Text) ++ c :: ' ' :: d :: u).getLast?, isBlank e = false := by
      obtain ⟨v, hv⟩ : trimStart t <:+ t := List.dropWhile_suffix isBlank
      intro e he
      refine ht.2 e ?_
      rw [← hv, hrest, ← List.cons_append, List.getLast?_append_of_ne_nil _ (List.cons_ne_nil d u)]
      have hcut : ("& " : Text) ++ c :: ' ' :: d :: u = ("& " ++ [c, ' ']) ++ d :: u := rfl
      rwa [hcut, List.getLast?_append_of_ne_nil _ (List.cons_ne_nil d u)] at he
    rw [trimEnd_eq_self hlast]
    rfl

/-- In front of the name of an element a setting joins what a stylesheet keeps apart. -/
theorem nestPart_of_namesElement (h : namesElement t = true) :
    nestPart true t = '&' :: t ∧ Selector.nestPart true t = "& " ++ t := by
  obtain _ | ⟨c, t⟩ := t
  · exact absurd h Bool.false_ne_true
  have hc : c.isAlpha = true ∨ c = '*' := by
    simpa [namesElement] using h
  have hother : ∀ d, d.isAlpha = false → d ≠ '*' → c ≠ d := by
    rintro d hd hstar rfl
    exact hc.elim (by simp [hd]) hstar
  have hamp : c ≠ '&' := hother '&' (by decide) (by decide)
  have hcombinator : isCombinator c = false := by
    simp [isCombinator, hother '>' (by decide) (by decide), hother '+' (by decide) (by decide),
      hother '~' (by decide) (by decide)]
  have hclass : isClassOrId (c :: t) = false := by
    simp [isClassOrId, hother '.' (by decide) (by decide), hother '#' (by decide) (by decide)]
  constructor
  · rw [nestPart, combined?_eq_none hcombinator, hclass]
    simp [startsWith, Ne.symm hamp]
  · rw [Selector.nestPart, if_neg hamp, hcombinator]
    rcases hc with hc | hc <;> simp [hc]

/-- Everywhere else the two nested selectors are the same. -/
theorem nestPart_eq {descendant : Bool} (ht : Trimmed t)
    (h : (descendant && namesElement t) = false) :
    nestPart descendant t = Selector.nestPart descendant t := by
  obtain _ | ⟨c, t⟩ := t
  · cases descendant <;> rfl
  by_cases hamp : c = '&'
  · subst hamp
    rfl
  have hstart : startsWith (c :: t) "&" = false := by
    simp [startsWith, List.isPrefixOf, Ne.symm hamp]
  rw [nestPart, hstart, if_neg Bool.false_ne_true, Selector.nestPart, if_neg hamp]
  cases hc : isCombinator c with
  | true => rw [combined?_of_trimmed hc ht, if_pos rfl, Option.getD_some]
  | false =>
    have hkind : (descendant && (c == '.' || c == '#' || c.isAlpha || c == '*')) =
        (descendant && isClassOrId (c :: t)) := by
      cases descendant with
      | false => rfl
      | true =>
        have hname : (c.isAlpha || c == '*') = false := h
        rw [isClassOrId, Bool.or_assoc, hname, Bool.or_false]
    rw [combined?_eq_none hc, Option.getD_none, if_neg Bool.false_ne_true, hkind]

theorem join_map_eq_iff (separator : Text)
    (h : ∀ t ∈ parts, (f t).length ≤ (g t).length) :
    join separator (parts.map f) = join separator (parts.map g) ↔ ∀ t ∈ parts, f t = g t := by
  refine ⟨fun he => ?_, fun he => congrArg _ (List.map_congr_left he)⟩
  suffices hboth : (join separator (parts.map f)).length ≤ (join separator (parts.map g)).length ∧
      (join separator (parts.map f) = join separator (parts.map g) → ∀ t ∈ parts, f t = g t) from
    hboth.2 he
  clear he
  induction parts with
  | nil => exact ⟨Nat.le_refl _, by simp⟩
  | cons t ts ih =>
    obtain ⟨ht, hts⟩ := List.forall_mem_cons.mp h
    obtain ⟨hle, heq⟩ := ih hts
    cases ts with
    | nil => simpa using ht
    | cons u ts =>
      simp only [List.map_cons, join_cons_cons, List.length_append] at hle ⊢
      refine ⟨by omega, fun he => ?_⟩
      -- Both the first part and the rest would have to make up for the other.
      have hlength := congrArg List.length he
      simp only [List.length_append] at hlength
      obtain ⟨hfirst, hrest⟩ := List.append_inj he (by omega)
      exact List.forall_mem_cons.mpr ⟨hfirst, heq (List.append_cancel_left hrest)⟩

/-- The two nested forms of a selector differ exactly in the white space in front of the name of an
element, and the one behind a setting is never the longer one. -/
theorem nestPart_eq_iff (descendant : Bool) (ht : Trimmed t) :
    (nestPart descendant t).length ≤ (Selector.nestPart descendant t).length ∧
      (nestPart descendant t = Selector.nestPart descendant t ↔
        descendant = true → namesElement t = false) := by
  cases h : descendant && namesElement t with
  | true =>
    obtain ⟨rfl, hname⟩ := Bool.and_eq_true_iff.mp h
    obtain ⟨hjoined, hapart⟩ := nestPart_of_namesElement hname
    rw [hjoined, hapart, hname]
    simp
  | false =>
    rw [nestPart_eq ht h]
    refine ⟨Nat.le_refl _, iff_of_true rfl ?_⟩
    rintro rfl
    exact h

/-- A suffix that is not blank is nested behind a setting as in a stylesheet exactly if no white
space stands in front of it, or none of its selectors begins with the name of an element. -/
theorem nest_eq_nestSuffix_iff (className : Text) (h : ¬ Blank raw) :
    nest raw className = nestSuffix raw ('.' :: className) ↔
      (startsBlank raw = true →
        ∀ t ∈ splitList (replaceToken (trim raw) ('.' :: className) "&"),
          namesElement t = false) := by
  have hne : (trim raw).isEmpty = false := by
    rwa [List.isEmpty_eq_false_iff, ne_eq, trim_eq_nil_iff]
  have hparts : ∀ t ∈ splitList (replaceToken (trim raw) ('.' :: className) "&"), Trimmed t :=
    fun t ht => trimmed_of_mem_splitList ht
  rw [nest, nestSuffix, hne, if_neg Bool.false_ne_true, if_neg Bool.false_ne_true,
    join_map_eq_iff _ fun t ht => (nestPart_eq_iff _ (hparts t ht)).1]
  constructor
  · exact fun heq hblank t ht => (nestPart_eq_iff _ (hparts t ht)).2.mp (heq t ht) hblank
  · exact fun hnames t ht => (nestPart_eq_iff _ (hparts t ht)).2.mpr fun hblank => hnames hblank t ht

/-- White space in front of a list of selectors counts in the same way in both places. -/
theorem nest_eq_nestSuffix_list :
    ¬ Blank " .child, > p, [open], .card em" ∧
      nest " .child, > p, [open], .card em" "card" =
        nestSuffix " .child, > p, [open], .card em" ('.' :: "card") :=
  ⟨by decide, (nest_eq_nestSuffix_iff "card" (by decide)).mpr (by decide)⟩

/-- The name of an element inside a class is joined to the class behind a setting. -/
theorem nest_joins_element :
    ¬ Blank " span" ∧ nest " span" "card" = "&span" ∧ nestSuffix " span" ".card" = "& span" ∧
      nest " span" "card" ≠ nestSuffix " span" ('.' :: "card") := by
  decide

end Restyle.Suffix
