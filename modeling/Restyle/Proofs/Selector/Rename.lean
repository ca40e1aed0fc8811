import Restyle.Proofs.Text.Letter
import Restyle.Selector.Rename

/-! # Renamed element ids

Renaming goes from left to right and leaves everything but ids of the source
builder as it is. It does not look beyond a character that neither goes on a
name nor begins an id, so a text can be cut there, and it keeps the length.
-/

namespace Restyle.Selector

open Text

variable {c : Char} {t u mark : Text}

theorem forward_builderId : builderId.Forward :=
  fun _ _ => rfl

theorem builderId_cons_of_ne (hd : c ≠ '#') (t : Text) : builderId none (c :: t) = none := by
  rw [builderId]
  · rfl
  · exact fun u he => hd (List.cons.inj he).1

theorem stopsAt_builderId (hname : isFoldedNameChar c = false) (hsharp : c ≠ '#') :
    builderId.StopsAt c := by
  refine ⟨rfl, fun t u => ?_⟩
  have hword : ∀ l ∈ ("brxe-" : Text), fold l ≠ fold c := by
    intro l hl he
    have hall : (("brxe-" : Text).all isFoldedNameChar) = true := by decide
    have hfold := List.all_eq_true.mp hall l hl
    rw [isFoldedNameChar, he] at hfold
    exact Bool.false_ne_true (hname.symm.trans hfold)
  rcases t with _ | ⟨d, t⟩
  · exact builderId_cons_of_ne hsharp u
  · by_cases hd : d = '#'
    · subst hd
      simp only [List.cons_append, builderId, dropWord?_append_cons hword]
      cases dropWord? "brxe-" t with
      | none => rfl
      | some rest =>
        simp only [Option.map_some, Option.bind_eq_bind, Option.bind_some,
          takeWhile_append_cons hname, dropWhile_append_cons hname]
        split <;> rfl
    · rw [List.cons_append, builderId_cons_of_ne hd, builderId_cons_of_ne hd]
      rfl

theorem renameIds_append_cons (hname : isFoldedNameChar c = false) (hsharp : c ≠ '#') (t u : Text) :
    renameIds (t ++ c :: u) = renameIds t ++ c :: renameIds u :=
  substitute_append_cons forward_builderId (stopsAt_builderId hname hsharp) t u

theorem renameIds_append_of_notMem (h : '#' ∉ t) (u : Text) :
    renameIds (t ++ u) = t ++ renameIds u := by
  induction t with
  | nil => rfl
  | cons c t ih =>
    rw [List.mem_cons, not_or] at h
    rw [List.cons_append, renameIds,
      substitute_cons forward_builderId (builderId_cons_of_ne (Ne.symm h.1) _), ← renameIds, ih h.2,
      List.cons_append]

theorem renameIds_of_notMem (h : '#' ∉ t) : renameIds t = t := by
  have happend := renameIds_append_of_notMem h []
  have hnil : renameIds [] = [] := rfl
  rwa [List.append_nil, hnil, List.append_nil] at happend

theorem renameIds_blank_append {w : Text} (hw : Blank w) (t : Text) :
    renameIds (w ++ t) = w ++ renameIds t :=
  renameIds_append_of_notMem (fun h => hw.ne_of_mem h (by decide) rfl) t

theorem renameIds_append_blank (t : Text) {w : Text} (hw : Blank w) :
    renameIds (t ++ w) = renameIds t ++ w := by
  rcases w with _ | ⟨c, w⟩
  · rw [List.append_nil, List.append_nil]
  · obtain ⟨hc, hw⟩ := blank_cons.mp hw
    have hsharp : c ≠ '#' := by
      rintro rfl
      exact absurd hc (by decide)
    have hself : renameIds w = w := renameIds_of_notMem fun h => hw.ne_of_mem h (by decide) rfl
    rw [renameIds_append_cons (isFoldedNameChar_of_blank hc) hsharp, hself]

def StartsName (t : Text) : Prop :=
  ∃ c ∈ t.head?, isFoldedNameChar c = true

/-- An id of the source builder begins a text, with its mark in any letter case. -/
def StartsBuilderId (t : Text) : Prop :=
  ∃ mark rest, t = '#' :: (mark ++ rest) ∧ mark.map fold = ("brxe-" : Text).map fold ∧
    StartsName rest

instance (t : Text) : Decidable (StartsName t) :=
  inferInstanceAs (Decidable (∃ c ∈ t.head?, _))

theorem startsName_of_all (hne : t ≠ []) (ht : t.all isNameChar = true) : StartsName t := by
  obtain ⟨c, t, rfl⟩ := List.exists_cons_of_ne_nil hne
  exact ⟨c, rfl, isFoldedNameChar_of_isNameChar (List.all_eq_true.mp ht c List.mem_cons_self)⟩

theorem sharp_notMem_takeWhile (t : Text) : '#' ∉ t.takeWhile isFoldedNameChar := by
  intro h
  have hname := List.mem_takeWhile_imp h
  exact absurd hname (by decide)

theorem isEmpty_takeWhile_iff (t : Text) :
    (t.takeWhile isFoldedNameChar).isEmpty = true ↔ ¬ StartsName t := by
  cases t with
  | nil => simp [StartsName]
  | cons c t => cases h : isFoldedNameChar c <;> simp [StartsName, h]

theorem builderId_sharp (t : Text) : builderId none ('#' :: t) =
    (dropWord? "brxe-" t).bind fun rest =>
      if (rest.takeWhile isFoldedNameChar).isEmpty then none
      else some ("#etch-" ++ rest.takeWhile isFoldedNameChar, rest.dropWhile isFoldedNameChar) := rfl

theorem length_mark (hmark : mark.map fold = ("brxe-" : Text).map fold) : mark.length = 5 := by
  have hlen := congrArg List.length hmark
  rwa [List.length_map, List.length_map] at hlen

theorem builderId_eq (hmark : mark.map fold = ("brxe-" : Text).map fold) (ht : StartsName t) :
    builderId none ('#' :: (mark ++ t)) =
      some ("#etch-" ++ t.takeWhile isFoldedNameChar, t.dropWhile isFoldedNameChar) := by
  have hdrop : dropWord? "brxe-" (mark ++ t) = some t :=
    dropWord?_eq_some_iff.mpr ⟨mark, rfl, hmark⟩
  rw [builderId_sharp, hdrop, Option.bind_some, if_neg]
  rw [isEmpty_takeWhile_iff]
  exact fun h => h ht

theorem isSome_builderId_iff : (builderId none t).isSome ↔ StartsBuilderId t := by
  constructor
  · intro h
    rcases t with _ | ⟨c, t⟩
    · exact absurd h Bool.false_ne_true
    · obtain rfl : c = '#' := by
        by_contra hc
        rw [builderId_cons_of_ne hc] at h
        exact Bool.false_ne_true h
      rw [builderId_sharp, Option.isSome_bind, Option.any_eq_true] at h
      obtain ⟨rest, hdrop, hrest⟩ := h
      obtain ⟨mark, rfl, hmark⟩ := dropWord?_eq_some_iff.mp hdrop
      refine ⟨mark, rest, rfl, hmark, ?_⟩
      by_contra hname
      rw [if_pos ((isEmpty_takeWhile_iff rest).mpr hname)] at hrest
      exact absurd hrest (by simp)
  · rintro ⟨mark, rest, rfl, hmark, hrest⟩
    rw [builderId_eq hmark hrest]
    rfl

theorem renameIds_builderId (hmark : mark.map fold = ("brxe-" : Text).map fold)
    (hrest : StartsName t) : renameIds ('#' :: (mark ++ t)) = "#etch-" ++ renameIds t := by
  have hsplit : '#' :: (mark ++ t) =
      '#' :: (mark ++ t.takeWhile isFoldedNameChar) ++ t.dropWhile isFoldedNameChar := by
    rw [List.cons_append, List.append_assoc, List.takeWhile_append_dropWhile]
  have hrename := builderId_eq hmark hrest
  rw [hsplit] at hrename ⊢
  rw [renameIds, substitute_append forward_builderId (List.cons_ne_nil _ _) hrename, ← renameIds,
    List.append_assoc, ← renameIds_append_of_notMem (sharp_notMem_takeWhile t),
    List.takeWhile_append_dropWhile]

theorem renameIds_cons (h : ¬ StartsBuilderId (c :: t)) : renameIds (c :: t) = c :: renameIds t := by
  refine substitute_cons forward_builderId ?_
  rwa [← Option.not_isSome_iff_eq_none, isSome_builderId_iff]

theorem length_renameIds (t : Text) : (renameIds t).length = t.length := by
  -- The mark of an id is passed over at once, so the induction is on the length of what is left.
  induction hn : t.length using Nat.strongRecOn generalizing t with
  | ind n ih =>
    by_cases h : StartsBuilderId t
    · obtain ⟨mark, rest, rfl, hmark, hrest⟩ := h
      have hlen := length_mark hmark
      have hwritten : ("#etch-" : Text).length = 6 := rfl
      rw [List.length_cons, List.length_append, hlen] at hn
      rw [renameIds_builderId hmark hrest, List.length_append, ih rest.length (by omega) rest rfl]
      omega
    · rcases t with _ | ⟨c, t⟩
      · exact hn
      · rw [renameIds_cons h, List.length_cons, ih t.length (by simp [← hn]) t rfl, ← hn,
          List.length_cons]

/-- Renaming changes every text in which an id of the source builder begins anywhere. -/
theorem renameIds_eq_self_iff :
    renameIds t = t ↔ ∀ v, v <:+ t → ¬ StartsBuilderId v := by
  induction t with
  | nil =>
    refine ⟨fun _ v hv => ?_, fun _ => rfl⟩
    obtain rfl := List.suffix_nil.mp hv
    rintro ⟨mark, rest, h, -⟩
    exact absurd h (List.cons_ne_nil _ _).symm
  | cons c t ih =>
    by_cases h : StartsBuilderId (c :: t)
    · refine iff_of_false ?_ fun hall => hall _ List.suffix_rfl h
      obtain ⟨mark, rest, he, hmark, hrest⟩ := h
      rw [he, renameIds_builderId hmark hrest]
      intro hself
      rcases mark with _ | ⟨m, mark⟩
      · simp at hmark
      · -- Behind the sharp stands the first letter of another mark.
        have hm : 'e' = m := (List.cons.inj (List.cons.inj hself).2).1
        subst hm
        exact absurd (List.cons.inj hmark).1 (by decide)
    · rw [renameIds_cons h, List.cons.injEq, ih]
      constructor
      · rintro ⟨-, hall⟩ v hv
        rcases List.suffix_cons_iff.mp hv with rfl | hv
        · exact h
        · exact hall v hv
      · exact fun hall => ⟨rfl, fun v hv => hall v (hv.trans (List.suffix_cons c t))⟩

end Restyle.Selector
