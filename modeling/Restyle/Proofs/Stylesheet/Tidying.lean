import Restyle.Declaration.Value
import Restyle.Element.Styles
import Restyle.Proofs.Selector.Rename
import Restyle.Proofs.Stylesheet.Nested
import Restyle.Proofs.Text.Substitution

/-! # Tidying custom stylesheets

Before a custom stylesheet is read, repeated semicolons are dropped and element
ids are renamed. Neither reaches across the end of a line, so a stylesheet of
whole lines is tidied line by line.
-/

namespace Restyle

open Text

namespace Text

variable {c : Char} {t u w : Text}

theorem squeeze_append_cons {p : Char → Bool} (hc : p c = false) (single : Char) (inRun : Bool)
    (t u : Text) :
    squeeze p single inRun (t ++ c :: u) = squeeze p single inRun t ++ c :: squeeze p single false u := by
  induction t generalizing inRun with
  | nil => simp [squeeze, hc]
  | cons d t ih =>
    rw [List.cons_append, squeeze, squeeze]
    split
    · rw [ih, List.append_assoc]
    · rw [ih, List.cons_append]

end Text

namespace CustomCss

/-- A custom stylesheet as it is read, apart from the white space around it. -/
def tidied (css : Text) : Text :=
  Selector.renameIds (squeezeSemicolons (css.replace "; ;" ";"))

def WholeLines (t : Text) : Prop :=
  t = [] ∨ ∃ u, t = u ++ ['\n']

variable {t u : Text}

theorem WholeLines.append (ht : WholeLines t) (hu : WholeLines u) : WholeLines (t ++ u) := by
  rcases hu with rfl | ⟨u, rfl⟩
  · rwa [List.append_nil]
  · exact Or.inr ⟨t ++ u, (List.append_assoc t u _).symm⟩

theorem wholeLines_flatMap {α : Type} {f : α → Text} {as : List α} (h : ∀ a ∈ as, WholeLines (f a)) :
    WholeLines (as.flatMap f) := by
  induction as with
  | nil => exact Or.inl rfl
  | cons a as ih =>
    rw [List.flatMap_cons]
    exact (h a List.mem_cons_self).append (ih fun b hb => h b (List.mem_cons_of_mem a hb))

theorem wholeLines_apart (snippet : Text) : WholeLines (apart snippet) :=
  Or.inr ⟨'\n' :: snippet, rfl⟩

@[simp] theorem tidied_nil : tidied [] = [] := rfl

theorem tidied_append_cons (t u : Text) :
    tidied (t ++ '\n' :: u) = tidied t ++ '\n' :: tidied u := by
  have hreplace : (t ++ '\n' :: u).replace "; ;" ";" =
      t.replace "; ;" ";" ++ '\n' :: u.replace "; ;" ";" :=
    substitute_append_cons (forward_literal _ _)
      (stopsAt_literal (by decide) (by decide) _) t u
  rw [tidied, hreplace, squeezeSemicolons, squeeze_append_cons (by decide),
    Selector.renameIds_append_cons (by decide) (by decide)]
  rfl

theorem tidied_append (ht : WholeLines t) (u : Text) : tidied (t ++ u) = tidied t ++ tidied u := by
  rcases ht with rfl | ⟨t, rfl⟩
  · rfl
  · rw [List.append_assoc, List.singleton_append, tidied_append_cons, tidied_append_cons]
    simp

theorem exists_tidied_eq (css : Text) : ∃ w w', Blank w ∧ Blank w' ∧
    tidied css = w ++ Selector.renameIds (Declaration.tidyCustomCss css) ++ w' := by
  obtain ⟨w, w', hw, hw', he⟩ := exists_eq_trim (squeezeSemicolons (css.replace "; ;" ";"))
  refine ⟨w, w', hw, hw', ?_⟩
  rw [tidied, he, Selector.renameIds_append_blank _ hw', Selector.renameIds_blank_append hw]
  rfl

theorem nestedCss_tidied (css token : Text) :
    nestedCss (Selector.renameIds (Declaration.tidyCustomCss css)) token =
      nestedCss (tidied css) token := by
  obtain ⟨w, w', hw, hw', he⟩ := exists_tidied_eq css
  rw [he, nestedCss_between hw hw']

theorem selectorNames_tidied (css : Text) (sigil : Char) :
    selectorNames (Selector.renameIds (Declaration.tidyCustomCss css)) sigil =
      selectorNames (tidied css) sigil := by
  obtain ⟨w, w', hw, hw', he⟩ := exists_tidied_eq css
  rw [he, selectorNames_between hw hw']

end CustomCss

end Restyle
