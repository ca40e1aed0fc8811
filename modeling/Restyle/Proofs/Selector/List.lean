import Restyle.Proofs.Text.Blank
import Restyle.Selector.Basic

/-! # Selector lists

A list of selectors is split at the commas that no bracket holds, whatever the
white space around the selectors.
-/

namespace Restyle.Selector

open Text

/-- The number of brackets open behind a text, unless it has a comma outside of them. -/
def depthBehind? : Nat → Text → Option Nat
  | depth, [] => some depth
  | depth, c :: t =>
    if c = '(' ∨ c = '[' then depthBehind? (depth + 1) t
    else if c = ')' ∨ c = ']' then depthBehind? (depth - 1) t
    else if c = ',' ∧ depth = 0 then none
    else depthBehind? depth t

variable {t u w current : Text} {depth depth' : Nat}

theorem splitFrom_append (h : depthBehind? depth t = some depth') (current u : Text) :
    splitFrom depth current (t ++ u) = splitFrom depth' (t.reverse ++ current) u := by
  induction t generalizing depth current with
  | nil =>
    obtain rfl : depth = depth' := by simpa [depthBehind?] using h
    rfl
  | cons c t ih =>
    rw [depthBehind?] at h
    rw [List.cons_append, splitFrom, List.reverse_cons, List.append_assoc, List.singleton_append]
    split_ifs at h ⊢ with h₁ h₂ h₃
    · exact ih h _
    · exact ih h _
    · exact ih h _

theorem depthBehind?_append (h : depthBehind? depth t = some depth') (u : Text) :
    depthBehind? depth (t ++ u) = depthBehind? depth' u := by
  induction t generalizing depth with
  | nil =>
    obtain rfl : depth = depth' := by simpa [depthBehind?] using h
    rfl
  | cons c t ih =>
    rw [depthBehind?] at h
    rw [List.cons_append, depthBehind?]
    split_ifs at h ⊢ with h₁ h₂ h₃
    · exact ih h
    · exact ih h
    · exact ih h

theorem depthBehind?_of_forall (h : ∀ c ∈ t, c ∉ ['(', '[', ')', ']', ',']) (depth : Nat) :
    depthBehind? depth t = some depth := by
  induction t with
  | nil => rfl
  | cons c t ih =>
    have hc := h c List.mem_cons_self
    simp only [List.mem_cons, List.not_mem_nil, or_false, not_or] at hc
    rw [depthBehind?, if_neg (by simp [hc]), if_neg (by simp [hc]), if_neg (by simp [hc]),
      ih fun d hd => h d (List.mem_cons_of_mem c hd)]

theorem depthBehind?_of_blank (h : Blank w) (depth : Nat) : depthBehind? depth w = some depth := by
  exact depthBehind?_of_forall (fun c hc => h.notMem hc (by decide)) depth

theorem isSome_depthBehind?_of_append (h : (depthBehind? depth (t ++ u)).isSome) :
    (depthBehind? depth t).isSome := by
  induction t generalizing depth with
  | nil => rfl
  | cons c t ih =>
    rw [List.cons_append, depthBehind?] at h
    rw [depthBehind?]
    split_ifs at h ⊢ with h₁ h₂ h₃
    · exact ih h
    · exact ih h
    · exact absurd h (by simp)
    · exact ih h

theorem isSome_depthBehind?_trim (h : (depthBehind? 0 t).isSome) :
    (depthBehind? 0 (trim t)).isSome := by
  obtain ⟨w, w', hw, -, he⟩ := exists_eq_trim t
  rw [he] at h
  have ht := isSome_depthBehind?_of_append h
  rwa [depthBehind?_append (depthBehind?_of_blank hw 0)] at ht

theorem splitList_of_depthBehind? (h : depthBehind? 0 t = some depth) : splitList t = part t := by
  have hs := splitFrom_append h [] []
  simpa [splitList, splitFrom] using hs

theorem splitList_append_comma (h : depthBehind? 0 t = some 0) (u : Text) :
    splitList (t ++ ',' :: u) = part t ++ splitList u := by
  rw [splitList, splitFrom_append h, splitFrom]
  simp [splitList]

theorem part_blank_append (h : Blank w) (t : Text) : part (w ++ t) = part t := by
  rw [part, trim_blank_append h, part]

theorem part_append_blank (t : Text) (h : Blank w) : part (t ++ w) = part t := by
  rw [part, trim_append_blank t h, part]

theorem part_of_trimmed (h : Trimmed t) (hne : t ≠ []) : part t = [t] := by
  simp [part, h.trim_eq, hne]

theorem splitFrom_append_blank_current (h : Blank w) (depth : Nat) (current t : Text) :
    splitFrom depth (current ++ w) t = splitFrom depth current t := by
  induction t generalizing depth current with
  | nil => rw [splitFrom, List.reverse_append, part_blank_append h.reverse, splitFrom]
  | cons c t ih =>
    simp only [splitFrom, ← List.cons_append, ih, List.reverse_append, part_blank_append h.reverse]

theorem splitFrom_of_blank (h : Blank w) (depth : Nat) (current : Text) :
    splitFrom depth current w = part current.reverse := by
  have hs := splitFrom_append (depthBehind?_of_blank h depth) current []
  rw [List.append_nil] at hs
  rw [hs, splitFrom, List.reverse_append, List.reverse_reverse, part_append_blank _ h]

theorem splitFrom_append_blank (h : Blank w) (depth : Nat) (current t : Text) :
    splitFrom depth current (t ++ w) = splitFrom depth current t := by
  induction t generalizing depth current with
  | nil => rw [List.nil_append, splitFrom_of_blank h, splitFrom]
  | cons c t ih => simp only [List.cons_append, splitFrom, ih]

theorem splitList_trim (t : Text) : splitList (trim t) = splitList t := by
  obtain ⟨w, w', hw, hw', he⟩ := exists_eq_trim t
  calc splitList (trim t)
    _ = splitFrom 0 ([] ++ w.reverse) (trim t) :=
      (splitFrom_append_blank_current hw.reverse 0 [] (trim t)).symm
    _ = splitList (w ++ trim t) := by
      rw [splitList, splitFrom_append (depthBehind?_of_blank hw 0), List.append_nil,
        List.nil_append]
    _ = splitList (w ++ trim t ++ w') := (splitFrom_append_blank hw' 0 [] _).symm
    _ = splitList t := by rw [← he]

theorem eq_trim_of_mem_part (h : u ∈ part t) : u = trim t := by
  rw [part] at h
  split_ifs at h
  · cases h
  · exact List.mem_singleton.mp h

/-- A stretch of a list without the white space around it, in which no comma stands outside of
brackets and behind which the list ends or a comma stands. -/
def StandsIn (u t : Text) : Prop :=
  ∃ before v after, t = before ++ (v ++ after) ∧ u = trim v ∧ (depthBehind? 0 v).isSome ∧
    ∀ c ∈ after.head?, c = ','

theorem standsIn_of_mem_splitFrom (hcurrent : depthBehind? 0 current.reverse = some depth)
    (h : u ∈ splitFrom depth current t) : StandsIn u (current.reverse ++ t) := by
  have hsome : (depthBehind? 0 current.reverse).isSome := by
    rw [hcurrent]
    rfl
  induction t generalizing depth current with
  | nil => exact ⟨[], current.reverse, [], by simp, eq_trim_of_mem_part h, hsome, by simp⟩
  | cons c t ih =>
    have hmove : current.reverse ++ c :: t = (c :: current).reverse ++ t := by simp
    have hread : depthBehind? 0 (c :: current).reverse = depthBehind? depth [c] := by
      rw [List.reverse_cons, depthBehind?_append hcurrent]
    have hnext : ∀ {depth'}, depthBehind? depth [c] = some depth' →
        u ∈ splitFrom depth' (c :: current) t → StandsIn u (current.reverse ++ c :: t) := by
      intro depth' hdepth h
      rw [hmove]
      exact ih (hread.trans hdepth) h (by rw [hread, hdepth]; rfl)
    rw [splitFrom] at h
    split_ifs at h with h₁ h₂ h₃
    · exact hnext (by simp [depthBehind?, h₁]) h
    · exact hnext (by simp [depthBehind?, h₁, h₂]) h
    · rcases List.mem_append.mp h with h | h
      · exact ⟨[], current.reverse, c :: t, rfl, eq_trim_of_mem_part h, hsome, by simp [h₃.1]⟩
      · obtain ⟨before, v, after, he, hv⟩ := ih rfl h rfl
        exact ⟨current.reverse ++ c :: before, v, after, by simpa using he, hv⟩
    · exact hnext (by simp [depthBehind?, h₁, h₂, h₃]) h

theorem standsIn_of_mem_splitList (h : u ∈ splitList t) : StandsIn u t :=
  standsIn_of_mem_splitFrom rfl h

theorem isSome_depthBehind?_of_mem_splitList (h : u ∈ splitList t) : (depthBehind? 0 u).isSome := by
  obtain ⟨-, v, -, -, rfl, hv, -⟩ := standsIn_of_mem_splitList h
  exact isSome_depthBehind?_trim hv

theorem infix_of_mem_splitList (h : u ∈ splitList t) : u <:+: t := by
  obtain ⟨before, v, after, rfl, rfl, -, -⟩ := standsIn_of_mem_splitList h
  obtain ⟨w, w', -, -, hv⟩ := exists_eq_trim v
  have hin : trim v <:+: v := ⟨w, w', hv.symm⟩
  exact hin.trans ⟨before, after, by simp⟩

end Restyle.Selector
