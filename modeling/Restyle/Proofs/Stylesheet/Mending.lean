import Restyle.Proofs.Stylesheet.Thinning
import Restyle.Proofs.Text.ClosingUp
import Restyle.Stylesheet.Check

/-! # What mending leaves

Mending closes up semicolons, squeezes white space and trims. The first two are
thinnings, so mending changes the quoted strings one by one. A second run
changes something exactly if a gap between semicolons is left behind.
-/

namespace Restyle

open Text Lexeme

variable {c : Char} {part t u w : Text}

theorem thinning_closeUp : Thinning closeUp where
  nil := rfl
  cut t c u hc := by
    have hmem : c ∉ ("; ;" : Text) := by
      intro h
      have hidle : ∀ d ∈ ("; ;" : Text), isIdle d = true := by decide
      exact Bool.false_ne_true (hc.symm.trans (hidle c h))
    exact substitute_append_cons (forward_literal _ _) (stopsAt_literal (by decide) hmem ";") t u
  idle w hw := by
    induction w using closeUp_induction with
    | nil => exact hw
    | pair t ih =>
      rw [closeUp_pair]
      exact List.forall_mem_cons.mpr ⟨by decide, ih fun c hc => hw c (by simp [hc])⟩
    | char c t h ih =>
      obtain ⟨hc, ht⟩ := List.forall_mem_cons.mp hw
      rw [closeUp_cons h]
      exact List.forall_mem_cons.mpr ⟨hc, ih ht⟩
  ne_nil w _ hne := by
    induction w using closeUp_induction with
    | nil => exact hne
    | pair t ih => exact closeUp_pair t ▸ List.cons_ne_nil _ _
    | char c t h ih => exact closeUp_cons h ▸ List.cons_ne_nil _ _

theorem thinning_squeezeBlanks : Thinning squeezeBlanks where
  nil := rfl
  cut t c u hc := by
    have hvisible : isBlank c = false := (Bool.or_eq_false_iff.mp hc).1
    have hcut : ∀ inRun, squeeze isBlank ' ' inRun (t ++ c :: u) =
        squeeze isBlank ' ' inRun t ++ c :: squeezeBlanks u := by
      induction t with
      | nil => exact fun inRun => squeeze_visible hvisible inRun u
      | cons d t ih =>
        intro inRun
        rw [List.cons_append, squeeze, squeeze, ih true, ih false]
        split_ifs <;> simp
    exact hcut false
  idle w hw c hc := by
    rcases mem_squeeze hc with hmem | rfl
    · exact hw c hmem
    · decide
  ne_nil w _ hne := mt squeezeBlanks_eq_nil_iff.mp hne

theorem mendSheet_eq (css : Text) : mendSheet css = spaced (closeUp css) := rfl

theorem idle_of_blank (hw : Blank w) : Idle w :=
  fun c hc => by rw [isIdle, hw c hc, Bool.true_or]

theorem Lexeme.extend_of_open {l : Lexeme} (hl : l.closed = false) (w : Text) :
    (l.extend w).quotedString? = l.quotedString? ∧ (l.extend w).unquoted = l.unquoted ++ w := by
  cases l with
  | plain c => exact absurd hl.symm Bool.false_ne_true
  | quoted t closed =>
    obtain rfl : closed = false := hl
    exact ⟨rfl, rfl⟩
  | comment t closed => exact ⟨rfl, rfl⟩

/-- White space behind a text is in no string either, also where a lexeme is open. -/
theorem append_blank (t : Text) (hw : Blank w) :
    quotedStrings (t ++ w) = quotedStrings t ∧ unquoted (t ++ w) = unquoted t ++ w := by
  rcases scan_append_blank_cases t hw with h | ⟨ls, l, hopen, hls, h⟩
  · obtain ⟨hquoted, hunquoted⟩ := Thinning.idle_append (idle_of_blank hw) []
    rw [List.append_nil] at hquoted hunquoted
    rw [← scan_blank hw] at h
    constructor
    · rw [quotedStrings, h, List.filterMap_append]
      exact (congrArg (quotedStrings t ++ ·) hquoted).trans (List.append_nil _)
    · rw [unquoted, h, List.flatMap_append]
      exact congrArg (unquoted t ++ ·) (hunquoted.trans (List.append_nil w))
  · obtain ⟨hquoted, hunquoted⟩ := extend_of_open hopen w
    rw [quotedStrings, unquoted, h, quotedStrings, unquoted, hls]
    simp [List.filterMap_cons, hquoted, hunquoted]

theorem quotedStrings_trim (t : Text) : quotedStrings (trim t) = quotedStrings t := by
  obtain ⟨w, w', hw, hw', he⟩ := exists_eq_trim t
  conv_rhs => rw [he, (append_blank _ hw').1, (Thinning.idle_append (idle_of_blank hw) _).1]

theorem infix_unquoted_trim (hpart : Trimmed part) (hne : part ≠ []) (t : Text) :
    part <:+: unquoted (trim t) ↔ part <:+: unquoted t := by
  obtain ⟨w, w', hw, hw', he⟩ := exists_eq_trim t
  conv_rhs => rw [he, (append_blank _ hw').2, (Thinning.idle_append (idle_of_blank hw) _).2,
    ← infix_trim hpart hne, trim_append_blank _ hw', trim_blank_append hw, infix_trim hpart hne]

/-- Mending changes every quoted string as a text on its own. -/
theorem quotedStrings_mendSheet (css : Text) :
    quotedStrings (mendSheet css) = (quotedStrings css).map fun s => squeezeBlanks (closeUp s) := by
  rw [mendSheet_eq, spaced_eq_trim, quotedStrings_trim, (thinning_squeezeBlanks.strings _).quoted,
    (thinning_closeUp.strings css).quoted, List.map_map]
  rfl

/-- Outside the quoted strings mending does what it does to a text without them. -/
theorem infix_unquoted_mendSheet (hpart : Trimmed part) (hne : part ≠ []) (css : Text) :
    part <:+: unquoted (mendSheet css) ↔ part <:+: squeezeBlanks (closeUp (unquoted css)) := by
  rw [mendSheet_eq, spaced_eq_trim, infix_unquoted_trim hpart hne,
    (thinning_squeezeBlanks.strings _).unquoted, (thinning_closeUp.strings css).unquoted]

theorem gap_unquoted_mendSheet (css : Text) :
    "; ;" <:+: unquoted (mendSheet css) ↔ HasLastingGap (unquoted css) :=
  (infix_unquoted_mendSheet (by decide) (by decide) css).trans
    ((infix_squeeze false).trans hasGap_closeUp)

theorem doubled_unquoted_mendSheet (css : Text) :
    ";;" <:+: unquoted (mendSheet css) ↔ ";;" <:+: unquoted css := by
  rw [infix_unquoted_mendSheet (by decide) (by decide), ← contains_iff_isInfix,
    contains_squeezeBlanks (by decide) (by decide), contains_iff_isInfix]
  exact doubled_closeUp

/-- A mended text is mended again exactly if a gap is left in it. -/
theorem mendSheet_mendSheet_iff (css : Text) :
    mendSheet (mendSheet css) = mendSheet css ↔ ¬ HasLastingGap css := by
  have hspaced : spaced (mendSheet css) = mendSheet css := by
    rw [mendSheet_eq, spaced, words_spaced]
    rfl
  have hgap : "; ;" <:+: mendSheet css ↔ HasLastingGap css := by
    rw [mendSheet_eq, spaced_eq_trim, infix_trim (by decide) (by decide)]
    exact (infix_squeeze false).trans hasGap_closeUp
  rw [← hgap, ← closeUp_eq_self_iff, mendSheet_eq (mendSheet css)]
  constructor
  · intro h
    refine closeUp_eq_self_of_length ?_
    have hle := length_spaced_le (closeUp (mendSheet css))
    rwa [h] at hle
  · intro h
    rw [h, hspaced]

theorem squeezeBlanks_closeUp_eq_self_iff :
    squeezeBlanks (closeUp t) = t ↔ squeezeBlanks t = t ∧ ¬ "; ;" <:+: t := by
  constructor
  · intro h
    have hle : (squeezeBlanks (closeUp t)).length ≤ (closeUp t).length := length_squeeze_le false _
    rw [h] at hle
    have hclose := closeUp_eq_self_of_length hle
    rw [hclose] at h
    exact ⟨h, closeUp_eq_self_iff.mp hclose⟩
  · rintro ⟨hsqueeze, hgap⟩
    rw [closeUp_eq_self_iff.mpr hgap, hsqueeze]

theorem quotedStrings_sublist_iff (css : Text) :
    (quotedStrings css).Sublist (quotedStrings (mendSheet css)) ↔
      ∀ s ∈ quotedStrings css, squeezeBlanks s = s ∧ ¬ "; ;" <:+: s := by
  rw [quotedStrings_mendSheet]
  simp only [← squeezeBlanks_closeUp_eq_self_iff]
  generalize quotedStrings css = strings
  constructor
  · intro h
    -- There are as many strings as before, so none is left out.
    have hmap : strings.map id = strings.map fun s => squeezeBlanks (closeUp s) := by
      rw [List.map_id]
      exact h.eq_of_length (List.length_map _).symm
    exact fun s hs => (List.map_inj_left.mp hmap s hs).symm
  · intro h
    rw [List.map_congr_left h, List.map_id']

/-- Mending twice is mending once exactly if no gap between semicolons is left behind. Outside of
quoted strings gaps are left where they are left in the text without the strings, and semicolons
that stand side by side always. The quoted strings are kept exactly if there is nothing in them to
squeeze or to close up. -/
theorem mendSheet_settles_iff (css : Text) :
    (mendSheet (mendSheet css) = mendSheet css ↔ ¬ HasLastingGap css) ∧
    ("; ;" <:+: unquoted (mendSheet css) ↔ HasLastingGap (unquoted css)) ∧
    (";;" <:+: unquoted (mendSheet css) ↔ ";;" <:+: unquoted css) ∧
    ((quotedStrings css).Sublist (quotedStrings (mendSheet css)) ↔
      ∀ s ∈ quotedStrings css, squeezeBlanks s = s ∧ ¬ "; ;" <:+: s) :=
  ⟨mendSheet_mendSheet_iff css, gap_unquoted_mendSheet css, doubled_unquoted_mendSheet css,
    quotedStrings_sublist_iff css⟩

/-- Three semicolons in a row are mended twice, two side by side stay, and white space in a string is
squeezed. -/
theorem mendSheet_unsettled :
    mendSheet (mendSheet "; ; ;") ≠ mendSheet "; ; ;" ∧
    ";;" <:+: unquoted (mendSheet "color: red;; margin: 0;") ∧
    ¬ (quotedStrings "a\x7bcontent:\"b  c\"\x7d").Sublist
      (quotedStrings (mendSheet "a\x7bcontent:\"b  c\"\x7d")) := by
  decide +kernel

end Restyle
