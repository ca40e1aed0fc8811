import Mathlib.Data.List.SplitBy
import Restyle.Proofs.Text.Letter

/-! # Runs of name characters

A text falls into its longest runs of name characters and the characters
between them. A run stands at the beginning of a text together with what
follows it, so that it is the first one and the others are the runs behind it.
-/

namespace Restyle.Text

variable {c : Char} {t u w word : Text}

/-- The longest runs of name characters, and each other character on its own. -/
def runs (t : Text) : List Text :=
  t.splitBy fun c d => isNameChar c && isNameChar d

inductive IsRun : Text → Text → Prop
  | other {c : Char} (hc : isNameChar c = false) (t : Text) : IsRun [c] t
  | name {w t : Text} (hne : w ≠ []) (hw : ∀ c ∈ w, isNameChar c = true)
      (ht : ∀ c ∈ t.head?, isNameChar c = false) : IsRun w t

namespace IsRun

theorem ne_nil (h : IsRun w t) : w ≠ [] := by
  cases h with
  | other => exact List.cons_ne_nil _ _
  | name hne => exact hne

theorem eq_singleton (h : IsRun w t) (hc : isNameChar c = false) (hmem : c ∈ w) : w = [c] := by
  cases h with
  | other => rw [List.mem_singleton.mp hmem]
  | name hne hw =>
    rw [hw c hmem] at hc
    exact absurd hc.symm Bool.false_ne_true

theorem runs_append (h : IsRun w t) : runs (w ++ t) = w :: runs t := by
  cases h with
  | @other c hc =>
    refine List.splitBy_append fun d hd e he => ?_
    obtain rfl : c = d := Option.some.inj hd
    rw [hc, Bool.false_and]
  | name hne hw ht =>
    have hchain : w.IsChain fun c d => (isNameChar c && isNameChar d) = true := by
      refine List.Pairwise.isChain (List.pairwise_of_forall_mem_list fun c hc d hd => ?_)
      rw [hw c hc, hw d hd, Bool.and_self]
    have hone : runs w = [w] := List.splitBy_of_isChain hne hchain
    rw [← List.singleton_append, ← hone]
    refine List.splitBy_append fun c hc d hd => ?_
    rw [ht d hd, Bool.and_false]

/-- A text begins with one run only. -/
theorem unique (h : IsRun w t) {w' t' : Text} (h' : IsRun w' t') (he : w ++ t = w' ++ t') :
    w = w' ∧ t = t' := by
  have hruns : w :: runs t = w' :: runs t' := by
    rw [← h.runs_append, ← h'.runs_append, he]
  obtain ⟨rfl, -⟩ := List.cons.inj hruns
  exact ⟨rfl, List.append_cancel_left he⟩

/-- A word of name characters opens a text exactly if it opens its first run. -/
theorem isPrefix_append_iff (h : IsRun w t) (hword : ∀ c ∈ word, isNameChar c = true) :
    word <+: w ++ t ↔ word <+: w := by
  refine ⟨fun hpre => ?_, fun hpre => hpre.trans (List.prefix_append w t)⟩
  obtain ⟨rest, hrest⟩ := hpre
  rcases List.append_eq_append_iff.mp hrest with ⟨v, rfl, -⟩ | ⟨v, rfl, rfl⟩
  · exact List.prefix_append word v
  · rcases v with _ | ⟨d, v⟩
    · exact ⟨[], by simp⟩
    · have hd := hword d (List.mem_append_right w List.mem_cons_self)
      cases h with
      | @other c hc =>
        have hc' := hword c (List.mem_append_left _ List.mem_cons_self)
        rw [hc] at hc'
        exact absurd hc' Bool.false_ne_true
      | name _ _ ht =>
        rw [ht d rfl] at hd
        exact absurd hd Bool.false_ne_true

theorem lower (h : IsRun w t) : IsRun (lower w) (lower t) := by
  cases h with
  | @other c hc => exact .other ((isNameChar_toLower c).trans hc) _
  | name hne hw ht =>
    refine .name (fun he => hne (List.map_eq_nil_iff.mp he)) (fun c hc => ?_) fun c hc => ?_
    · obtain ⟨d, hd, rfl⟩ := List.mem_map.mp hc
      exact (isNameChar_toLower d).trans (hw d hd)
    · rw [Text.lower, List.head?_map] at hc
      obtain ⟨d, hd, rfl⟩ := Option.map_eq_some_iff.mp hc
      exact (isNameChar_toLower d).trans (ht d hd)

theorem startsWith_append (h : IsRun w t) (hword : ∀ c ∈ word, isNameChar c = true) :
    (Text.lower (w ++ t)).startsWith word = (Text.lower w).startsWith word := by
  rw [Bool.eq_iff_iff, startsWith, startsWith, List.isPrefixOf_iff_prefix,
    List.isPrefixOf_iff_prefix, Text.lower, List.map_append]
  exact h.lower.isPrefix_append_iff hword

end IsRun

theorem exists_isRun (ht : t ≠ []) : ∃ w u, t = w ++ u ∧ IsRun w u := by
  obtain ⟨c, t, rfl⟩ := List.exists_cons_of_ne_nil ht
  cases hc : isNameChar c with
  | false => exact ⟨[c], t, rfl, .other hc t⟩
  | true =>
    refine ⟨(c :: t).takeWhile isNameChar, (c :: t).dropWhile isNameChar, ?_, .name ?_ ?_ ?_⟩
    · rw [List.takeWhile_append_dropWhile]
    · rw [List.takeWhile_cons_of_pos hc]
      exact List.cons_ne_nil c _
    · exact fun d hd => List.mem_takeWhile_imp hd
    · intro d hd
      have hhead := List.head?_dropWhile_not isNameChar (c :: t)
      rw [Option.mem_def.mp hd] at hhead
      simpa using hhead

theorem runs_blank_append (hw : Blank w) (t : Text) :
    runs (w ++ t) = w.map ([·]) ++ runs t := by
  induction w with
  | nil => rfl
  | cons c w ih =>
    obtain ⟨hc, hw⟩ := blank_cons.mp hw
    have hrun : runs ([c] ++ (w ++ t)) = [c] :: runs (w ++ t) :=
      (IsRun.other (isNameChar_of_blank hc) _).runs_append
    rw [List.map_cons, List.cons_append, List.cons_append, ← ih hw]
    exact hrun

end Restyle.Text
