import Restyle.Proofs.ImageFit.Roots

/-! # What stays in front of the nested block

A stylesheet is split in front of its first media block. What stays of the first
part keeps its semicolons, and one is put behind the last declaration if need
be, so that the nested block can follow.
-/

namespace Restyle.ImageFit

open Text Declaration Lexeme

variable {b : Option Char} {c : Char} {base media t u w part : Text} {ds : List Declaration}
  {ns : List Node}

section Splitting

theorem startsWith_media (c : Char) (t u : Text) :
    startsWith (c :: (t ++ '@' :: u)) "@media" = startsWith (c :: t) "@media" := by
  have hfree : '@' ∉ (['m', 'e', 'd', 'i', 'a'] : Text) := by decide
  rw [startsWith_eq_isSome, startsWith_eq_isSome]
  have hstart : ∀ t : Text, dropStart? (c :: t) "@media" =
      if '@' = c then dropStart? t ['m', 'e', 'd', 'i', 'a'] else none := fun _ => rfl
  rw [hstart, hstart, dropStart?_append_cons hfree]
  split_ifs
  · exact Option.isSome_map
  · rfl

theorem splitMedia_cons (h : startsWith (c :: t) "@media" = false) :
    splitMedia (c :: t) = (c :: (splitMedia t).1, (splitMedia t).2) := by
  simp only [splitMedia, h]
  rfl

theorem splitMedia_append (hbase : contains base "@media" = false)
    (hmedia : media = [] ∨ startsWith media "@media" = true) :
    splitMedia (base ++ media) = (base, media) := by
  induction base with
  | nil =>
    rcases media with _ | ⟨c, media⟩
    · rfl
    · have hstart := hmedia.resolve_left (List.cons_ne_nil c media)
      simp only [List.nil_append, splitMedia, hstart]
      rfl
  | cons c base ih =>
    rw [contains_cons, Bool.or_eq_false_iff] at hbase
    have hstart : startsWith (c :: (base ++ media)) "@media" = false := by
      rcases hmedia with rfl | hmedia
      · rw [List.append_nil]
        exact hbase.1
      · obtain ⟨rest, rfl⟩ := List.isPrefixOf_iff_prefix.mp hmedia
        exact (startsWith_media c base _).trans hbase.1
    rw [List.cons_append, splitMedia_cons hstart, ih hbase.2]

theorem splitMedia_append_cons (hc : c ∉ ("@media" : Text)) (ht : contains t "@media" = false) (u : Text) :
    splitMedia (t ++ c :: u) = (t ++ c :: (splitMedia u).1, (splitMedia u).2) := by
  induction t with
  | nil =>
    have hne : '@' ≠ c := fun h => hc (h ▸ List.mem_cons_self)
    have hnone : dropStart? (c :: u) "@media" = none := if_neg hne
    have hstart : startsWith (c :: u) "@media" = false := by
      rw [startsWith_eq_isSome, hnone]
      rfl
    exact splitMedia_cons hstart
  | cons d t ih =>
    rw [contains_cons, Bool.or_eq_false_iff] at ht
    have hdrop := dropStart?_append_cons hc (d :: t) u
    have hstart : startsWith (d :: t ++ c :: u) "@media" = false := by
      rw [startsWith_eq_isSome, hdrop, Option.isSome_map, ← startsWith_eq_isSome]
      exact ht.1
    rw [List.cons_append] at hstart ⊢
    rw [splitMedia_cons hstart, ih ht.2]
    rfl

end Splitting

namespace Moves

theorem contains_media (h : Moves t ds u ns) (ht : contains t "@media" = false) :
    contains u "@media" = false := by
  have hne : ("@media" : Text) ≠ [] := by decide
  have hword : ∀ c ∈ ("@media" : Text),
      c ∉ ['"', '\'', '\\', '/', '*', '\x7b', '\x7d', ';'] ∧ isBlank c = false := by
    decide
  have hsemicolon : ';' ∉ ("@media" : Text) := by decide
  induction h with
  | rest h => exact ht
  | root hp _ _ _ ih =>
    rw [hp.closed.contains_append hne hword, contains_append_cons hne hsemicolon] at ht
    simp only [Bool.or_eq_false_iff] at ht
    rw [hp.closed.contains_append hne hword, ht.1, ih ht.2.2]
    rfl

theorem squeezable (h : Moves t ds u ns) (ht : Snippet.Squeezable t) : Snippet.Squeezable u := by
  induction h with
  | rest h => exact ht
  | @root p d w t u e ds ns hp hd hw _ ih =>
    have hclosed : Snippet.Closed (d ++ w ++ [';']) := (Yields.declaration_between hd.chunk hw).toClosed
    have hrest : Snippet.Squeezable t := by
      have hdeclaration := hp.closed.squeezable_of_append ht
      rw [List.append_cons (d ++ w) ';' t] at hdeclaration
      exact hclosed.squeezable_of_append hdeclaration
    exact hp.closed.squeezable_append ht.of_append_left (ih hrest)

end Moves

section Repair

/-- A text with a semicolon behind it, unless one or a brace stands there already. -/
def closeLast (t : Text) : Text :=
  match t.getLast? with
  | none => []
  | some c => if c = ';' ∨ c = '}' then t else t ++ ";"

theorem remaining_eq (base : Text) :
    remaining base = closeLast (trim (squeezeSemicolons (substitute removing base))) := rfl

theorem closed_closeLast (h : Snippet.Pending t) :
    Snippet.Closed (closeLast t) ∧ Node.ofText (closeLast t) = Node.ofText t := by
  rcases List.eq_nil_or_concat t with rfl | ⟨t, c, rfl⟩
  · exact ⟨Yields.nil.toClosed, rfl⟩
  · rw [List.concat_eq_append] at h ⊢
    rw [closeLast, List.getLast?_concat]
    dsimp only
    split_ifs with hc
    · exact ⟨h.closed_of_last hc, rfl⟩
    · exact h.semicolon

theorem contains_closeLast (hne : part ≠ []) (hpart : ';' ∉ part) (h : contains t part = false) :
    contains (closeLast t) part = false := by
  unfold closeLast
  split
  · exact contains_nil hne
  · split_ifs
    · exact h
    · have hcons := contains_append_cons hne hpart t []
      rwa [h, contains_nil hne] at hcons

theorem head?_closeLast (h : ∀ c ∈ t.head?, isBlank c = false) :
    ∀ c ∈ (closeLast t).head?, isBlank c = false := by
  unfold closeLast
  split
  · exact fun c hc => absurd hc (by simp)
  · rename_i hlast
    split_ifs
    · exact h
    · have hne : t ≠ [] := by
        rintro rfl
        exact absurd hlast (by simp)
      rwa [List.head?_append_of_ne_nil _ hne]

def front (base : Text) : Text :=
  if (remaining base).isEmpty then [] else remaining base ++ "\n\n"

theorem front_append (base nested : Text) :
    (if (remaining base).isEmpty then nested else remaining base ++ "\n\n" ++ nested) =
      front base ++ nested := by
  unfold front
  split_ifs <;> rfl

structure IsFront (t : Text) (ns : List Node) : Prop where
  closed : Snippet.Closed t
  nodes : Node.ofText t = ns
  media : ∀ u, contains (t ++ u) "@media" = contains u "@media"
  visible : ∀ c ∈ t.head?, isBlank c = false
  apart : wordMayStart (lastOf none t) = true

theorem Moves.isFront (h : Moves base ds u ns) (hsqueezable : Snippet.Squeezable base)
    (hmedia : contains base "@media" = false) : IsFront (front base) ns := by
  have hremaining : remaining base = closeLast (trim (squeezeSemicolons u)) := by
    have hkept : substitute removing base = u := h.substituteFrom (by rfl)
    rw [remaining_eq, hkept]
  have halike := (h.squeezable hsqueezable).alike
  obtain ⟨hpending, hnodes⟩ := h.ofText_kept
  obtain ⟨hclosed, hofText⟩ := closed_closeLast (halike.pending hpending).trim
  rw [ofText_trim, ← halike.ofText_eq, hnodes] at hofText
  have hword : ("@media" : Text) ≠ [] ∧ ';' ∉ ("@media" : Text) := by decide
  have hsqueezed : contains (squeezeSemicolons u) "@media" = false := by
    rw [contains_squeezeSemicolons hword.1 hword.2, h.contains_media hmedia]
  generalize squeezeSemicolons u = u at hremaining hclosed hofText hsqueezed
  have hnone := contains_closeLast hword.1 hword.2 (contains_trim hsqueezed)
  unfold front
  rw [hremaining]
  split_ifs with hempty
  · rw [List.isEmpty_iff] at hempty
    rw [hempty] at hofText
    exact ⟨Yields.nil.toClosed, hofText, fun _ => rfl, by simp, by rfl⟩
  · have hfeeds : Yields [] "\n\n" := .of_blank (by decide)
    refine ⟨hclosed.append hfeeds.toClosed, ?_, ?_, ?_, ?_⟩
    · rw [hclosed.ofText_append, hofText, hfeeds.ofText, List.append_nil]
    · intro v
      have hcons := contains_append_cons hword.1
        (by decide : '\n' ∉ ("@media" : Text)) (closeLast (trim u)) ('\n' :: v)
      have hblank := contains_blank_append (by decide : Blank ['\n']) hword.1 (by decide) v
      rw [hnone, Bool.false_or] at hcons
      rw [List.append_assoc]
      exact hcons.trans hblank
    · have hne : closeLast (trim u) ≠ [] := fun h => hempty (List.isEmpty_iff.mpr h)
      rw [List.head?_append_of_ne_nil _ hne]
      exact head?_closeLast (trimmed_trim u).1
    · have hlast : lastOf none (closeLast (trim u) ++ "\n\n") = some '\n' :=
        lastOf_append_cons none (closeLast (trim u)) '\n' "\n"
      rw [hlast]
      decide +kernel

end Repair

end Restyle.ImageFit
