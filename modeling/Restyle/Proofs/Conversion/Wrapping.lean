import Restyle.Proofs.Conversion.Routing
import Restyle.Proofs.Stylesheet.Literal

/-! # What stands in a media block

The body of a media block has the declarations and nested blocks of the
converted settings, in their order, up to white space. Its string literals and
urls are those of the converted settings exactly if no line ends in one of them
and no space in one follows a semicolon: lines are broken behind semicolons in
quotes and parentheses as well.
-/

namespace Restyle.Conversion

open Text Resolver

def mediaBody (t : Text) : Text :=
  "\n" ++ indentDeclarations (trim t) ++ "\n"

def mediaAround (query t : Text) : Text :=
  if (trim t).isEmpty then []
  else "\n@media " ++ query ++ " \x7b" ++ mediaBody t ++ "\x7d"

theorem mediaBlock_eq (query t : Text) : mediaBlock query t = mediaAround query t := by
  unfold mediaBlock mediaAround mediaBody
  dsimp only
  split_ifs
  · rfl
  · simp

theorem exists_mediaBody_eq (t : Text) : ∃ w u w', Blank w ∧ Blank w' ∧ Wraps '\n' (trim t) u ∧
    mediaBody t = w ++ u ++ w' := by
  by_cases hne : trim t = []
  · refine ⟨['\n', '\n'], [], [], by decide, .nil, ?_, ?_⟩
    · rw [hne]
      exact .nil '\n'
    · rw [mediaBody, hne]
      rfl
  · have hlast := (trimmed_trim t).2
    refine ⟨"\n  ", layOut (breakLines '\n' (trim t)), "\n", by decide, by decide,
      wraps_layOut hlast, ?_⟩
    rw [mediaBody, indentDeclarations_eq hne hlast]
    simp

theorem ofText_mediaBody (t : Text) :
    (Node.ofText (mediaBody t)).map Node.spaced = (Node.ofText t).map Node.spaced := by
  obtain ⟨w, u, w', hw, hw', h, he⟩ := exists_mediaBody_eq t
  rw [he, ofText_between hw hw', h.ofText_eq, ofText_trim]

theorem literals_trim (t : Text) : literals (trim t) = literals t := by
  obtain ⟨w, w', hw, hw', he⟩ := exists_eq_trim t
  conv_rhs => rw [he, literals_append_blank _ hw', literals_blank_append hw]

theorem literals_mediaBody_iff (t : Text) :
    literals (mediaBody t) = literals t ↔ ∀ x ∈ literals t, Unbroken x := by
  obtain ⟨w, u, w', hw, hw', h, he⟩ := exists_mediaBody_eq t
  rw [he, literals_append_blank _ hw', literals_blank_append hw, ← literals_trim t,
    literals_eq_iff_of_wraps h]

/-- The media blocks have the nodes of what the settings for their breakpoints are converted to, and
its literals where these are unbroken. -/
theorem responsiveCss_keeps_literals_iff (overrides : List Json) (asked : List Step) (s : Settings)
    (className : Option Text) :
    let r := (ofOverrides overrides).run asked
    (responsiveCss r s className = r.breakpoints.flatMap fun (key, b) =>
      mediaAround (b.condition true) (css r (settingsFor r s key) className)) ∧
    ∀ key, let converted := css r (settingsFor r s key) className
      (Node.ofText (mediaBody converted)).map Node.spaced =
        (Node.ofText converted).map Node.spaced ∧
      (literals (mediaBody converted) = literals converted ↔
        ∀ x ∈ literals converted, Unbroken x) := by
  intro r
  have hr : r.Coherent := coherent_run overrides asked
  refine ⟨?_, fun key => ⟨ofText_mediaBody _, literals_mediaBody_iff _⟩⟩
  rw [responsiveCss_eq hr]
  simp only [mediaBlock_eq]

def spacedContent : Settings :=
  [("_content:tablet_portrait", .scalar "a; b")]

/-- A line is broken in a string literal. -/
theorem responsiveCss_breaks_literal :
    let r := ofOverrides []
    let converted := css r (settingsFor r spacedContent "tablet_portrait") (some "card")
    responsiveCss r spacedContent (some "card") =
      ("\n@media (width <= to-rem(991px)) \x7b\n  content: \"a;\n  b\";\n\x7d" : Text) ∧
    literals converted = ["\"a; b\""] ∧
    literals (mediaBody converted) = ["\"a;\n  b\""] := by
  decide +kernel

end Restyle.Conversion
