import Restyle.Proofs.Text.Cut
import Restyle.Proofs.Text.Lines
import Restyle.Proofs.Text.Spacing

/-! # Words

The words of a text are what stands between its white space, however much of it
there is. Tokens joined by single spaces are the words of the text that comes
out.
-/

namespace Restyle.Text

structure IsToken (t : Text) : Prop where
  ne_nil : t ≠ []
  visible : ∀ c ∈ t, isBlank c = false

instance (t : Text) : Decidable (IsToken t) :=
  decidable_of_iff (t ≠ [] ∧ ∀ c ∈ t, isBlank c = false) ⟨fun h => ⟨h.1, h.2⟩, fun h => ⟨h.1, h.2⟩⟩

/-- The words of a text with single spaces between them. -/
def spaced (t : Text) : Text :=
  join " " (words t)

variable {p : Char → Bool} {c : Char} {t u w : Text} {ts : List Text}

theorem split_append_of_pos (hc : p c = true) (t u : Text) :
    split p (t ++ c :: u) = split p t ++ split p u := by
  induction t with
  | nil => simp [split, hc]
  | cons d t ih =>
    rw [List.cons_append, split, split, ih]
    split_ifs
    · rfl
    · rcases hs : split p t with _ | ⟨x, xs⟩
      · exact absurd hs (split_ne_nil p t)
      · rfl

theorem words_append_cons (hc : isBlank c = true) (t u : Text) :
    words (t ++ c :: u) = words t ++ words u := by
  rw [words, split_append_of_pos hc, List.filter_append, words, words]

theorem words_cons_of_blank (hc : isBlank c = true) (t : Text) : words (c :: t) = words t :=
  words_append_cons hc [] t

theorem IsToken.words_eq (h : IsToken t) : words t = [t] := by
  rw [words, split_eq_singleton h.visible]
  simp [h.ne_nil]

theorem words_of_visible (h : ∀ c ∈ t, isBlank c = false) :
    words t = if t = [] then [] else [t] := by
  split_ifs with hnil
  · rw [hnil]
    rfl
  · exact IsToken.words_eq ⟨hnil, h⟩

theorem IsToken.words_append_cons (h : IsToken t) {c : Char} (hc : isBlank c = true) (u : Text) :
    words (t ++ c :: u) = t :: words u := by
  rw [Text.words_append_cons hc, h.words_eq, List.singleton_append]

theorem words_blank_append (hw : Blank w) (t : Text) : words (w ++ t) = words t := by
  induction w with
  | nil => rfl
  | cons c w ih =>
    obtain ⟨hc, hw⟩ := blank_cons.mp hw
    rw [List.cons_append, words_cons_of_blank hc, ih hw]

theorem words_eq_nil (hw : Blank w) : words w = [] := by
  have h := words_blank_append hw []
  rwa [List.append_nil] at h

theorem words_append_blank (t : Text) (hw : Blank w) : words (t ++ w) = words t := by
  rcases w with _ | ⟨c, w⟩
  · rw [List.append_nil]
  · obtain ⟨hc, hw⟩ := blank_cons.mp hw
    rw [words_append_cons hc, words_eq_nil hw, List.append_nil]

theorem words_trim (t : Text) : words (trim t) = words t := by
  obtain ⟨w, w', hw, hw', he⟩ := exists_eq_trim t
  conv_rhs => rw [he, words_append_blank _ hw', words_blank_append hw]

theorem words_eq_nil_iff : words t = [] ↔ Blank t := by
  refine ⟨fun h => ?_, words_eq_nil⟩
  induction t with
  | nil => exact .nil
  | cons c t ih =>
    cases hc : isBlank c with
    | true =>
      rw [words_cons_of_blank hc] at h
      exact blank_cons.mpr ⟨hc, ih h⟩
    | false =>
      rcases hs : split isBlank t with _ | ⟨x, xs⟩
      · exact absurd hs (split_ne_nil _ t)
      · simp [words, split, hc, hs] at h

/-- A text is one piece, or a piece, a character that ends it and a shorter text. -/
theorem piece_induction {P : Text → Prop} (p : Char → Bool)
    (piece : ∀ t, (∀ c ∈ t, p c = false) → P t)
    (cut : ∀ t c u, (∀ c ∈ t, p c = false) → p c = true → P u → P (t ++ c :: u)) (t : Text) : P t := by
  induction h : t.length using Nat.strong_induction_on generalizing t with
  | _ n ih =>
    rcases cut?_cases p t with hpiece | ⟨u, c, v, rfl, hu, hc⟩
    · exact piece t hpiece
    · refine cut u c v hu hc (ih v.length ?_ v rfl)
      rw [← h, List.length_append, List.length_cons]
      omega

theorem isToken_of_mem_words (h : w ∈ words t) : IsToken w := by
  induction t using piece_induction isBlank with
  | piece t ht =>
    rw [words_of_visible ht] at h
    split_ifs at h with hnil
    · exact absurd h List.not_mem_nil
    · obtain rfl := List.mem_singleton.mp h
      exact ⟨hnil, ht⟩
  | cut t c u ht hc ih =>
    rw [words_append_cons hc, words_of_visible ht] at h
    split_ifs at h with hnil
    · exact ih h
    · rcases List.mem_cons.mp h with rfl | h
      · exact ⟨hnil, ht⟩
      · exact ih h

/-- The words of a text hold its visible characters. -/
theorem flatten_words (t : Text) : (words t).flatten = t.filter (!isBlank ·) := by
  induction t using piece_induction isBlank with
  | piece t ht =>
    have hall : t.filter (!isBlank ·) = t := List.filter_eq_self.mpr fun c hc => by simp [ht c hc]
    rw [words_of_visible ht, hall]
    split_ifs with hnil
    · exact hnil.symm
    · exact List.flatten_singleton
  | cut t c u ht hc ih =>
    have hall : t.filter (!isBlank ·) = t := List.filter_eq_self.mpr fun c hc => by simp [ht c hc]
    rw [words_append_cons hc, List.flatten_append, ih, List.filter_append,
      List.filter_cons_of_neg (by simp [hc]), hall, words_of_visible ht]
    split_ifs with hnil
    · rw [hnil]
      rfl
    · rw [List.flatten_singleton]

theorem words_squeeze (inRun : Bool) (t : Text) :
    words (squeeze isBlank ' ' inRun t) = words t := by
  induction t using piece_induction isBlank generalizing inRun with
  | piece t ht =>
    rcases t with _ | ⟨d, t⟩
    · rfl
    · obtain ⟨hd, ht⟩ := List.forall_mem_cons.mp ht
      have hsame : squeezeBlanks t = t := by simpa [squeezeBlanks, squeeze] using squeezeBlanks_append ht []
      rw [squeeze_visible hd, hsame]
  | cut t c u ht hc ih =>
    have hrun : Blank (if inRun then [] else [' ']) := by cases inRun <;> decide
    rcases t with _ | ⟨d, t⟩
    · rw [List.nil_append, squeeze_blank hc, words_blank_append hrun, ih, words_cons_of_blank hc]
    · obtain ⟨hd, ht⟩ := List.forall_mem_cons.mp ht
      rw [List.cons_append, squeeze_visible hd, squeezeBlanks_append ht, squeezeBlanks_blank hc,
        ← List.cons_append, words_append_cons (by decide), ih, ← List.cons_append,
        words_append_cons hc]

theorem words_squeezeBlanks (t : Text) : words (squeezeBlanks t) = words t :=
  words_squeeze false t

theorem words_eq_singleton_iff : words u = [t] ↔
    ∃ w w', Blank w ∧ Blank w' ∧ u = w ++ t ++ w' ∧ IsToken t := by
  constructor
  · intro h
    have ht : IsToken t := isToken_of_mem_words (h ▸ List.mem_singleton_self t)
    obtain ⟨w, w', hw, hw', he⟩ := exists_eq_trim u
    rw [← words_trim] at h
    suffices htrim : trim u = t from ⟨w, w', hw, hw', htrim ▸ he, ht⟩
    rcases cut?_cases isBlank (trim u) with hvisible | ⟨a, c, b, hsplit, ha, hc⟩
    · rw [words_of_visible hvisible] at h
      split_ifs at h
      exact List.singleton_inj.mp h
    · have htrimmed := trimmed_trim u
      rw [hsplit] at h htrimmed
      rcases eq_or_ne a [] with rfl | hne
      · exact absurd (htrimmed.1 c rfl) (by simp [hc])
      · rw [words_append_cons hc, words_of_visible ha, if_neg hne] at h
        have hb : Blank b := words_eq_nil_iff.mp (List.cons.inj h).2
        have hlast := htrimmed.2 ((c :: b).getLast (List.cons_ne_nil c b))
          (by rw [List.getLast?_append_of_ne_nil _ (List.cons_ne_nil c b)]
              exact List.getLast?_eq_some_getLast _)
        have hblank := blank_cons.mpr ⟨hc, hb⟩ _ (List.getLast_mem (List.cons_ne_nil c b))
        exact absurd (hlast.symm.trans hblank) Bool.false_ne_true
  · rintro ⟨w, w', hw, hw', rfl, ht⟩
    rw [words_append_blank _ hw', words_blank_append hw, ht.words_eq]

theorem words_join_flatMap (ts : List Text) : words (join " " ts) = ts.flatMap words := by
  induction ts with
  | nil => rfl
  | cons t ts ih =>
    rcases ts with _ | ⟨u, ts⟩
    · simp
    · rw [join_space_cons, words_append_cons (by decide), ih]
      rfl

theorem words_join (h : ∀ t ∈ ts, IsToken t) : words (join " " ts) = ts := by
  rw [words_join_flatMap, List.flatMap_congr fun t ht => (h t ht).words_eq]
  exact List.flatMap_singleton' ts

@[simp] theorem words_spaced (t : Text) : words (spaced t) = words t :=
  words_join fun _ => isToken_of_mem_words

theorem spaced_eq_nil_iff : spaced t = [] ↔ Blank t := by
  rw [← words_eq_nil_iff]
  refine ⟨fun h => ?_, fun h => by rw [spaced, h]; rfl⟩
  rw [← words_spaced, h]
  rfl

theorem spaced_join (h : ∀ t ∈ ts, ¬ Blank t) : spaced (join " " ts) = join " " (ts.map spaced) := by
  have hne : ∀ ws ∈ ts.map words, ws ≠ [] := by
    intro ws hws
    obtain ⟨t, ht, rfl⟩ := List.mem_map.mp hws
    exact mt words_eq_nil_iff.mp (h t ht)
  have hmap : ts.map spaced = (ts.map words).map (join " ") := by
    rw [List.map_map]
    rfl
  rw [spaced, words_join_flatMap, hmap, join_map_join " " hne, List.flatMap]

end Restyle.Text
