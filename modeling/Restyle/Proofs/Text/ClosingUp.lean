import Restyle.Proofs.Text.Words

/-! # Closing up semicolons

Where two semicolons have one space between them, space and second semicolon are
left out, from left to right and never twice at one place. A gap between
semicolons is left behind if it is wider, or if there are two of them in a row.
-/

namespace Restyle.Text

/-- Leave out a space and a semicolon that stand behind a semicolon. -/
def closeUp (t : Text) : Text :=
  replace t "; ;" ";"

variable {c : Char} {t u w y part : Text}

theorem closeUp_pair (t : Text) : closeUp (';' :: ' ' :: ';' :: t) = ';' :: closeUp t :=
  replace_append (by decide : ("; ;" : Text) ≠ []) ";" t

theorem closeUp_cons (h : ¬ (c = ';' ∧ [' ', ';'] <+: t)) : closeUp (c :: t) = c :: closeUp t := by
  refine substitute_cons (forward_literal _ _) ?_
  rw [literal, Option.map_eq_none_iff, dropStart?_eq_none]
  rintro rest he
  obtain ⟨rfl, rfl⟩ := List.cons.inj he
  exact h ⟨rfl, rest, rfl⟩

/-- Induction over a text along what is closed up. -/
theorem closeUp_induction {P : Text → Prop} (nil : P [])
    (pair : ∀ t, P t → P (';' :: ' ' :: ';' :: t))
    (char : ∀ c t, ¬ (c = ';' ∧ [' ', ';'] <+: t) → P t → P (c :: t)) (t : Text) : P t := by
  induction hn : t.length using Nat.strong_induction_on generalizing t with
  | _ n ih =>
    rcases t with _ | ⟨c, t⟩
    · exact nil
    · by_cases hc : c = ';' ∧ [' ', ';'] <+: t
      · obtain ⟨rfl, rest, rfl⟩ := hc
        exact pair rest (ih rest.length (by rw [← hn]; simp; omega) rest rfl)
      · exact char c t hc (ih t.length (by rw [← hn]; exact Nat.lt_succ_self _) t rfl)

theorem length_closeUp_le (t : Text) : (closeUp t).length ≤ t.length := by
  induction t using closeUp_induction with
  | nil => exact le_rfl
  | pair t ih =>
    rw [closeUp_pair]
    simp only [List.length_cons]
    omega
  | char c t h ih =>
    rw [closeUp_cons h]
    exact Nat.succ_le_succ ih

/-- Whatever is closed up makes the text shorter. -/
theorem closeUp_eq_self_of_length (h : t.length ≤ (closeUp t).length) : closeUp t = t := by
  induction t using closeUp_induction with
  | nil => rfl
  | pair t ih =>
    have hle := length_closeUp_le t
    rw [closeUp_pair] at h
    simp only [List.length_cons] at h
    omega
  | char c t hc ih =>
    rw [closeUp_cons hc] at h ⊢
    rw [ih (Nat.le_of_succ_le_succ h)]

theorem closeUp_eq_self_iff : closeUp t = t ↔ ¬ "; ;" <:+: t := by
  induction t using closeUp_induction with
  | nil => decide
  | pair t ih =>
    refine iff_of_false (fun h => ?_) (not_not.mpr ⟨[], t, rfl⟩)
    have hlength := congrArg List.length h
    have hle := length_closeUp_le t
    rw [closeUp_pair] at hlength
    simp only [List.length_cons] at hlength
    omega
  | char c t h ih =>
    have hprefix : ¬ "; ;" <+: c :: t := by
      rintro ⟨rest, he⟩
      obtain ⟨rfl, rfl⟩ := List.cons.inj he
      exact h ⟨rfl, rest, rfl⟩
    rw [closeUp_cons h, List.cons_inj_right, ih, List.infix_cons_iff, or_iff_right hprefix]

/-- White space in front of a semicolon, with a property of the two texts around the semicolon. -/
def GapAhead (P : Text → Text → Prop) (t : Text) : Prop :=
  ∃ w y, t = w ++ ';' :: y ∧ Blank w ∧ w ≠ [] ∧ P w y

def Gapped (P : Text → Text → Prop) (t : Text) : Prop :=
  ∃ x w y, t = x ++ ';' :: (w ++ ';' :: y) ∧ Blank w ∧ w ≠ [] ∧ P w y

def HasGap : Text → Prop :=
  Gapped fun _ _ => True

/-- A gap that is left behind: it is not one space, or one space follows behind the next semicolon
in front of yet another. -/
def HasLastingGap : Text → Prop :=
  Gapped fun w y => w = " " → " ;" <+: y

def SemicolonAhead (t : Text) : Prop :=
  ∃ w y, t = w ++ ';' :: y ∧ Blank w

section Gap

variable {P : Text → Text → Prop}

theorem gapped_nil : ¬ Gapped P [] := by
  rintro ⟨x, w, y, he, -⟩
  simp at he

theorem gapped_cons : Gapped P (c :: t) ↔ c = ';' ∧ GapAhead P t ∨ Gapped P t := by
  constructor
  · rintro ⟨_ | ⟨d, x⟩, w, y, he, hw⟩
    · obtain ⟨rfl, rfl⟩ := List.cons.inj he
      exact Or.inl ⟨rfl, w, y, rfl, hw⟩
    · obtain ⟨rfl, rfl⟩ := List.cons.inj he
      exact Or.inr ⟨x, w, y, rfl, hw⟩
  · rintro (⟨rfl, w, y, rfl, hw⟩ | ⟨x, w, y, rfl, hw⟩)
    · exact ⟨[], w, y, rfl, hw⟩
    · exact ⟨c :: x, w, y, rfl, hw⟩

theorem semicolonAhead_cons :
    SemicolonAhead (c :: t) ↔ c = ';' ∨ isBlank c = true ∧ SemicolonAhead t := by
  constructor
  · rintro ⟨_ | ⟨d, w⟩, y, he, hw⟩
    · exact Or.inl (List.cons.inj he).1
    · obtain ⟨rfl, rfl⟩ := List.cons.inj he
      obtain ⟨hc, hw⟩ := blank_cons.mp hw
      exact Or.inr ⟨hc, w, y, rfl, hw⟩
  · rintro (rfl | ⟨hc, w, y, rfl, hw⟩)
    · exact ⟨[], t, rfl, .nil⟩
    · exact ⟨c :: w, y, rfl, blank_cons.mpr ⟨hc, hw⟩⟩

theorem not_semicolonAhead_nil : ¬ SemicolonAhead [] := by
  rintro ⟨w, y, he, -⟩
  simp at he

theorem gapAhead_cons :
    GapAhead (fun _ _ => True) (c :: t) ↔ isBlank c = true ∧ SemicolonAhead t := by
  constructor
  · rintro ⟨_ | ⟨d, w⟩, y, he, hw, hne, -⟩
    · exact absurd rfl hne
    · obtain ⟨rfl, rfl⟩ := List.cons.inj he
      obtain ⟨hc, hw⟩ := blank_cons.mp hw
      exact ⟨hc, w, y, rfl, hw⟩
  · rintro ⟨hc, w, y, rfl, hw⟩
    exact ⟨c :: w, y, rfl, blank_cons.mpr ⟨hc, hw⟩, List.cons_ne_nil c w, trivial⟩

theorem gapAhead_iff : GapAhead (fun _ _ => True) t ↔
    " ;" <+: t ∨ GapAhead (fun w y => w = " " → " ;" <+: y) t := by
  constructor
  · rintro ⟨w, y, rfl, hw, hne, -⟩
    by_cases hspace : w = " "
    · rw [hspace]
      exact Or.inl ⟨y, rfl⟩
    · exact Or.inr ⟨w, y, rfl, hw, hne, fun he => absurd he hspace⟩
  · rintro (⟨y, rfl⟩ | ⟨w, y, rfl, hw, hne, -⟩)
    · exact ⟨" ", y, rfl, by decide, by decide, trivial⟩
    · exact ⟨w, y, rfl, hw, hne, trivial⟩

theorem gapAhead_space_semicolon :
    GapAhead (fun w y => w = " " → " ;" <+: y) (' ' :: ';' :: t) ↔ " ;" <+: t := by
  constructor
  · rintro ⟨_ | ⟨d, w⟩, y, he, hw, hne, hy⟩
    · exact absurd rfl hne
    · obtain ⟨rfl, hrest⟩ := List.cons.inj he
      rcases w with _ | ⟨e, w⟩
      · obtain rfl := (List.cons.inj hrest).2
        exact hy rfl
      · -- The gap ends at the first semicolon.
        obtain ⟨rfl, -⟩ := List.cons.inj hrest
        exact absurd (hw ';' (by simp)) (by decide)
  · intro h
    exact ⟨" ", t, rfl, by decide, by decide, fun _ => h⟩

end Gap

section CloseUp

theorem semicolonAhead_closeUp : SemicolonAhead (closeUp t) ↔ SemicolonAhead t := by
  induction t using closeUp_induction with
  | nil => rfl
  | pair t ih => rw [closeUp_pair, semicolonAhead_cons, semicolonAhead_cons]; simp
  | char c t h ih => rw [closeUp_cons h, semicolonAhead_cons, semicolonAhead_cons, ih]

theorem gapAhead_closeUp :
    GapAhead (fun _ _ => True) (closeUp t) ↔ GapAhead (fun _ _ => True) t := by
  induction t using closeUp_induction with
  | nil => rfl
  | pair t ih =>
    have hvisible : isBlank ';' = false := by decide
    rw [closeUp_pair, gapAhead_cons, gapAhead_cons, hvisible]
    simp
  | char c t h ih => rw [closeUp_cons h, gapAhead_cons, gapAhead_cons, semicolonAhead_closeUp]

/-- What is closed up has a gap exactly where one lasts. -/
theorem hasGap_closeUp : HasGap (closeUp t) ↔ HasLastingGap t := by
  rw [HasGap, HasLastingGap]
  induction t using closeUp_induction with
  | nil => exact iff_of_false gapped_nil gapped_nil
  | pair t ih =>
    rw [closeUp_pair, gapped_cons, ih, gapAhead_closeUp, gapAhead_iff, gapped_cons,
      gapAhead_space_semicolon, gapped_cons, gapped_cons]
    simp [or_assoc]
  | char c t h ih =>
    rw [closeUp_cons h, gapped_cons, ih, gapAhead_closeUp, gapAhead_iff, gapped_cons]
    refine or_congr_left (and_congr_right fun hc => or_iff_right fun hprefix => h ⟨hc, hprefix⟩)

theorem semicolon_prefix_closeUp : [';'] <+: closeUp t ↔ [';'] <+: t := by
  induction t using closeUp_induction with
  | nil => rfl
  | pair t ih => simp [closeUp_pair]
  | char c t h ih => simp [closeUp_cons h]

theorem doubled_closeUp : [';', ';'] <:+: closeUp t ↔ [';', ';'] <:+: t := by
  induction t using closeUp_induction with
  | nil => rfl
  | pair t ih =>
    rw [closeUp_pair, List.infix_cons_iff, ih, List.infix_cons_iff, List.infix_cons_iff,
      List.infix_cons_iff]
    simp [semicolon_prefix_closeUp]
  | char c t h ih =>
    rw [closeUp_cons h, List.infix_cons_iff, ih, List.infix_cons_iff]
    simp [semicolon_prefix_closeUp]

end CloseUp

section Squeeze

theorem semicolon_prefix_squeeze : [';'] <+: squeeze isBlank ' ' true t ↔ SemicolonAhead t := by
  induction t with
  | nil => exact iff_of_false (by simp [squeeze]) not_semicolonAhead_nil
  | cons c t ih =>
    rw [semicolonAhead_cons]
    cases hc : isBlank c with
    | true =>
      have hne : c ≠ ';' := by
        rintro rfl
        exact absurd hc (by decide)
      rw [squeeze_blank hc, if_pos rfl, List.nil_append, ih]
      simp [hne]
    | false =>
      rw [squeeze_visible hc]
      simp [eq_comm]

theorem space_prefix_squeezeBlanks :
    [' ', ';'] <+: squeezeBlanks t ↔ GapAhead (fun _ _ => True) t := by
  rcases t with _ | ⟨c, t⟩
  · refine iff_of_false (by simp [squeezeBlanks, squeeze]) ?_
    rintro ⟨w, y, he, -⟩
    simp at he
  · rw [gapAhead_cons]
    cases hc : isBlank c with
    | true =>
      rw [squeezeBlanks_blank hc, List.cons_prefix_cons, semicolon_prefix_squeeze]
      simp
    | false =>
      have hne : ' ' ≠ c := by
        rintro rfl
        exact absurd hc (by decide)
      rw [squeezeBlanks_cons hc, List.cons_prefix_cons]
      simp [hne]

/-- In a squeezed text every gap is one space. -/
theorem infix_squeeze (inRun : Bool) :
    [';', ' ', ';'] <:+: squeeze isBlank ' ' inRun t ↔ HasGap t := by
  rw [HasGap]
  induction t generalizing inRun with
  | nil => exact iff_of_false (by simp [squeeze]) gapped_nil
  | cons c t ih =>
    cases hc : isBlank c with
    | true =>
      have hne : c ≠ ';' := by
        rintro rfl
        exact absurd hc (by decide)
      rw [squeeze_blank hc, gapped_cons]
      cases inRun with
      | true => simp [ih, hne]
      | false => simp [ih, hne, List.infix_cons_iff]
    | false =>
      rw [squeeze_visible hc, List.infix_cons_iff, List.cons_prefix_cons, space_prefix_squeezeBlanks,
        gapped_cons, squeezeBlanks, ih, eq_comm]

end Squeeze

section Spaced

theorem trim_squeeze (inRun : Bool) (t : Text) :
    trim (squeeze isBlank ' ' inRun t) = trim (squeezeBlanks t) := by
  rcases t with _ | ⟨c, t⟩
  · rfl
  · cases hc : isBlank c with
    | true =>
      rw [squeeze_blank hc, squeezeBlanks_blank hc]
      cases inRun with
      | true => exact (trim_blank_append (by decide : Blank [' ']) _).symm
      | false => rfl
    | false => rw [squeeze_visible hc, squeezeBlanks_cons hc]

theorem trimStart_squeeze_true (t : Text) :
    trimStart (squeeze isBlank ' ' true t) = squeeze isBlank ' ' true t := by
  induction t with
  | nil => rfl
  | cons c t ih =>
    cases hc : isBlank c with
    | true =>
      rw [squeeze_blank hc]
      exact ih
    | false => rw [squeeze_visible hc, trimStart_cons_of_not_blank hc]

theorem IsToken.spaced_append_cons (h : IsToken t) (hc : isBlank c = true) (hu : ¬ Blank u) :
    spaced (t ++ c :: u) = t ++ [' '] ++ spaced u := by
  rw [spaced, h.words_append_cons hc]
  rcases hwords : words u with _ | ⟨v, vs⟩
  · exact absurd (words_eq_nil_iff.mp hwords) hu
  · rw [join_cons_cons, ← hwords]
    exact (List.append_assoc t _ _).symm

theorem spaced_eq_trim (t : Text) : spaced t = trim (squeezeBlanks t) := by
  induction t using piece_induction isBlank with
  | piece t ht =>
    have hsame : squeezeBlanks t = t := squeeze_of_forall ht false
    rw [hsame, (trimmed_of_visible ht).trim_eq, spaced, words_of_visible ht]
    split_ifs with hnil
    · exact hnil.symm
    · exact join_singleton " " t
  | cut t c u ht hc ih =>
    have hsqueeze : squeezeBlanks (t ++ c :: u) = t ++ ([' '] ++ squeeze isBlank ' ' true u) := by
      rw [squeezeBlanks_append ht, squeezeBlanks_blank hc]
      rfl
    have hrest := trim_squeeze true u
    rw [← ih] at hrest
    rw [hsqueeze]
    rcases eq_or_ne t [] with rfl | hne
    · rw [List.nil_append, List.nil_append, trim_blank_append (by decide), hrest, spaced,
        words_cons_of_blank hc, spaced]
    · -- Behind the space the rest begins visibly, so it only has to be trimmed at the end.
      have htoken : IsToken t := ⟨hne, ht⟩
      have htrim := trimmed_of_visible ht
      obtain ⟨w, hw, hend⟩ := exists_eq_trimEnd (squeeze isBlank ' ' true u)
      rw [trim, trimStart_squeeze_true] at hrest
      rw [hrest] at hend
      have hall : t ++ ([' '] ++ (spaced u ++ w)) = t ++ [' '] ++ spaced u ++ w := by simp
      rw [hend, hall, trim_append_blank _ hw]
      by_cases hu : Blank u
      · rw [spaced_eq_nil_iff.mpr hu, List.append_nil, trim_append_blank t (by decide), htrim.trim_eq,
          spaced, htoken.words_append_cons hc, words_eq_nil hu]
        exact join_singleton " " t
      · have hspaced : Trimmed (spaced u) := ih ▸ trimmed_trim (squeezeBlanks u)
        rw [(htrim.append hspaced hne (mt spaced_eq_nil_iff.mp hu) [' ']).trim_eq,
          htoken.spaced_append_cons hc hu]

theorem length_squeeze_le (inRun : Bool) (t : Text) :
    (squeeze isBlank ' ' inRun t).length ≤ t.length := by
  induction t generalizing inRun with
  | nil => exact le_rfl
  | cons c t ih =>
    have hrest := ih true
    cases hc : isBlank c with
    | true =>
      rw [squeeze_blank hc]
      cases inRun <;> simp <;> omega
    | false =>
      rw [squeeze_visible hc]
      exact Nat.succ_le_succ (ih false)

theorem length_spaced_le (t : Text) : (spaced t).length ≤ t.length := by
  obtain ⟨w, w', -, -, he⟩ := exists_eq_trim (squeezeBlanks t)
  have hlength := congrArg List.length he
  have hle : (squeezeBlanks t).length ≤ t.length := length_squeeze_le false t
  rw [List.length_append, List.length_append] at hlength
  rw [spaced_eq_trim]
  omega

theorem infix_blank_append (hw : Blank w) (ht : Trimmed part) (hne : part ≠ []) :
    part <:+: w ++ t ↔ part <:+: t := by
  obtain ⟨a, part, rfl⟩ := List.exists_cons_of_ne_nil hne
  induction w with
  | nil => rfl
  | cons c w ih =>
    obtain ⟨hc, hw⟩ := blank_cons.mp hw
    have ha : a ≠ c := by
      rintro rfl
      exact Bool.false_ne_true ((ht.1 a rfl).symm.trans hc)
    rw [List.cons_append, List.infix_cons_iff, ih hw, List.cons_prefix_cons]
    simp [ha]

theorem infix_trim (ht : Trimmed part) (hne : part ≠ []) : part <:+: trim t ↔ part <:+: t := by
  obtain ⟨w, w', hw, hw', he⟩ := exists_eq_trim t
  have hreverse : Trimmed part.reverse := by
    constructor
    · simpa using ht.2
    · simpa using ht.1
  conv_rhs => rw [he, List.append_assoc, infix_blank_append hw ht hne, ← List.reverse_infix,
    List.reverse_append, infix_blank_append hw'.reverse hreverse (by simpa using hne),
    List.reverse_infix]

end Spaced

end Restyle.Text
