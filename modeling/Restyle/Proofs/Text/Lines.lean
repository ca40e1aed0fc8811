import Restyle.Proofs.Text.Blank

/-! # Joining texts and taking lines apart

Lines joined by line feeds are the lines of the text that comes out, if none of
them is empty, has a line feed or ends with a carriage return.
-/

namespace Restyle.Text

variable {p : Char → Bool} {c : Char} {t : Text} {separator : Text} {parts : List Text}

/-- The texts that can be seen, without the white space around them. -/
def nonblank (parts : List Text) : List Text :=
  (parts.map trim).filter (· ≠ [])

theorem ne_nil_of_mem_nonblank (h : t ∈ nonblank parts) : t ≠ [] := by
  simpa using (List.mem_filter.mp h).2

theorem nonblank_concat (parts : List Text) (t : Text) :
    nonblank (parts ++ [t]) = nonblank parts ++ if trim t = [] then [] else [trim t] := by
  by_cases h : trim t = [] <;> simp [nonblank, h]

@[simp] theorem join_singleton (separator t : Text) : join separator [t] = t := by
  simp [join, List.intercalate]

theorem join_cons_cons (separator t u : Text) (parts : List Text) :
    join separator (t :: u :: parts) = t ++ (separator ++ join separator (u :: parts)) := by
  simp [join, List.intercalate]

theorem join_cons_of_ne_nil (separator t : Text) (h : parts ≠ []) :
    join separator (t :: parts) = t ++ (separator ++ join separator parts) := by
  obtain ⟨u, parts, rfl⟩ := List.exists_cons_of_ne_nil h
  exact join_cons_cons separator t u parts

theorem join_space_cons (t u : Text) (parts : List Text) :
    join " " (t :: u :: parts) = t ++ ' ' :: join " " (u :: parts) :=
  join_cons_cons " " t u parts

/-- What holds of the parts, and of two texts with the separator in between if it holds of both,
holds of the parts joined. -/
theorem join_induction {P : Text → Prop} (pair : ∀ t u, P t → P u → P (t ++ (separator ++ u)))
    (h : ∀ t ∈ parts, P t) (hne : parts ≠ []) : P (join separator parts) := by
  induction parts with
  | nil => exact absurd rfl hne
  | cons t parts ih =>
    obtain ⟨ht, h⟩ := List.forall_mem_cons.mp h
    rcases eq_or_ne parts [] with rfl | hne
    · rwa [join_singleton]
    · rw [join_cons_of_ne_nil _ _ hne]
      exact pair t _ ht (ih h hne)

theorem join_append_cons (separator u piece : Text) (pieces : List Text) :
    join separator ((u ++ piece) :: pieces) = u ++ join separator (piece :: pieces) := by
  rcases eq_or_ne pieces [] with rfl | h
  · simp
  · rw [join_cons_of_ne_nil _ _ h, join_cons_of_ne_nil _ _ h, List.append_assoc]

theorem join_ne_nil (h : t ∈ parts) (hne : t ≠ []) : join separator parts ≠ [] := by
  induction parts with
  | nil => simp at h
  | cons u parts ih =>
    rcases parts with _ | ⟨v, parts⟩
    · obtain rfl := List.mem_singleton.mp h
      rwa [join_singleton]
    · rw [join_cons_cons]
      rcases List.mem_cons.mp h with rfl | h
      · simp [hne]
      · simp [ih h]

theorem mem_join_of_mem (h : t ∈ parts) (hc : c ∈ t) : c ∈ join separator parts := by
  induction parts with
  | nil => exact absurd h List.not_mem_nil
  | cons u parts ih =>
    rcases eq_or_ne parts [] with rfl | hne
    · rwa [join_singleton, ← List.mem_singleton.mp h]
    · rw [join_cons_of_ne_nil _ _ hne]
      rcases List.mem_cons.mp h with rfl | h
      · exact List.mem_append_left _ hc
      · exact List.mem_append_right _ (List.mem_append_right _ (ih h))

theorem not_blank_join (h : t ∈ parts) (ht : ¬ Blank t) : ¬ Blank (join separator parts) :=
  fun hb => ht fun c hc => hb c (mem_join_of_mem h hc)

theorem blank_join_iff (hs : Blank separator) :
    Blank (join separator parts) ↔ ∀ t ∈ parts, Blank t := by
  refine ⟨fun h t ht => by_contra fun hne => not_blank_join ht hne h, fun h => ?_⟩
  induction parts with
  | nil => exact .nil
  | cons t parts ih =>
    obtain ⟨ht, hparts⟩ := List.forall_mem_cons.mp h
    rcases eq_or_ne parts [] with rfl | hne
    · rwa [join_singleton]
    · rw [join_cons_of_ne_nil _ _ hne]
      exact ht.append (hs.append (ih hparts))

theorem join_append (separator : Text) {parts parts' : List Text} (h : parts ≠ [])
    (h' : parts' ≠ []) :
    join separator (parts ++ parts') =
      join separator parts ++ (separator ++ join separator parts') := by
  induction parts with
  | nil => exact absurd rfl h
  | cons t parts ih =>
    rw [List.cons_append, join_cons_of_ne_nil _ _ (by simp [h'])]
    rcases parts with _ | ⟨u, parts⟩
    · rw [List.nil_append, join_singleton]
    · rw [ih (List.cons_ne_nil _ _), join_cons_cons]
      simp only [List.append_assoc]

theorem mem_join (h : c ∈ join separator parts) : c ∈ separator ∨ ∃ t ∈ parts, c ∈ t := by
  induction parts with
  | nil => exact absurd h List.not_mem_nil
  | cons t parts ih =>
    rcases eq_or_ne parts [] with rfl | hne
    · rw [join_singleton] at h
      exact Or.inr ⟨t, List.mem_cons_self, h⟩
    · rw [join_cons_of_ne_nil _ _ hne, List.mem_append, List.mem_append] at h
      rcases h with h | h | h
      · exact Or.inr ⟨t, List.mem_cons_self, h⟩
      · exact Or.inl h
      · exact (ih h).imp_right fun ⟨u, hu, hc⟩ => ⟨u, List.mem_cons_of_mem t hu, hc⟩

theorem join_map_join (separator : Text) {parts : List (List Text)} (h : ∀ ts ∈ parts, ts ≠ []) :
    join separator (parts.map (join separator)) = join separator parts.flatten := by
  induction parts with
  | nil => rfl
  | cons ts parts ih =>
    obtain ⟨hts, h⟩ := List.forall_mem_cons.mp h
    rcases parts with _ | ⟨us, parts⟩
    · simp
    · have hne : (us :: parts).flatten ≠ [] := by
        have hus := h us List.mem_cons_self
        simp [hus]
      have hflatten : (ts :: us :: parts).flatten = ts ++ (us :: parts).flatten := rfl
      rw [List.map_cons, join_cons_of_ne_nil _ _ (by simp), ih h, hflatten, join_append _ hts hne]

theorem split_ne_nil (p : Char → Bool) (t : Text) : split p t ≠ [] := by
  cases t with
  | nil => exact List.cons_ne_nil _ _
  | cons c t =>
    rw [split]
    split
    · exact List.cons_ne_nil _ _
    · split <;> exact List.cons_ne_nil _ _

theorem split_append_cons (ht : ∀ d ∈ t, p d = false) (hc : p c = true) (u : Text) :
    split p (t ++ c :: u) = t :: split p u := by
  induction t with
  | nil => simp [split, hc]
  | cons d t ih =>
    obtain ⟨hd, ht⟩ := List.forall_mem_cons.mp ht
    rw [List.cons_append, split, hd, ih ht]
    rfl

theorem split_eq_singleton (ht : ∀ d ∈ t, p d = false) : split p t = [t] := by
  induction t with
  | nil => rfl
  | cons d t ih =>
    obtain ⟨hd, ht⟩ := List.forall_mem_cons.mp ht
    rw [split, hd, ih ht]
    rfl

theorem split_join (h : parts ≠ []) (hparts : ∀ t ∈ parts, c ∉ t) :
    split (· == c) (join [c] parts) = parts := by
  have hpart : ∀ t ∈ parts, ∀ d ∈ t, (d == c) = false := fun t ht d hd =>
    beq_false_of_ne fun he => hparts t ht (he ▸ hd)
  induction parts with
  | nil => exact absurd rfl h
  | cons t parts ih =>
    have ht := hpart t List.mem_cons_self
    rcases parts with _ | ⟨u, parts⟩
    · rw [join_singleton, split_eq_singleton ht]
    · rw [join_cons_cons]
      have hsplit := split_append_cons ht (beq_self_eq_true c) (join [c] (u :: parts))
      refine hsplit.trans ?_
      rw [ih (List.cons_ne_nil _ _) (fun t ht => hparts t (List.mem_cons_of_mem _ ht))
        fun t ht => hpart t (List.mem_cons_of_mem _ ht)]

theorem notMem_of_mem_split (t : Text) : ∀ part ∈ split (· == c) t, c ∉ part := by
  induction t with
  | nil => simp [split]
  | cons d t ih =>
    by_cases hd : d = c
    · simpa [split, hd] using ih
    · have hcd : c ≠ d := Ne.symm hd
      rw [split, if_neg (by simpa using hd)]
      cases hsplit : split (· == c) t with
      | nil => simp [hcd]
      | cons part parts =>
        rw [hsplit, List.forall_mem_cons] at ih
        simpa [hcd] using ih

structure IsLine (t : Text) : Prop where
  ne_nil : t ≠ []
  no_feed : '\n' ∉ t
  no_return : t.getLast? ≠ some '\r'

theorem lines_join (hparts : ∀ t ∈ parts, IsLine t) : lines (join "\n" parts) = parts := by
  rcases eq_or_ne parts [] with rfl | hne
  · rfl
  · have hreturn : ∀ t ∈ parts.dropLast, dropReturn t = t := fun t ht =>
      if_neg (hparts t (List.dropLast_subset parts ht)).no_return
    have hlast : (parts.getLast?.filter (!·.isEmpty)).toList = [parts.getLast hne] := by
      rw [List.getLast?_eq_getLast_of_ne_nil hne]
      simp [Option.filter, (hparts _ (List.getLast_mem hne)).ne_nil]
    have hsplit : split (· == '\n') (join "\n" parts) = parts :=
      split_join hne fun t ht => (hparts t ht).no_feed
    rw [lines, hsplit]
    rw [List.map_congr_left hreturn, List.map_id', hlast, List.dropLast_append_getLast]

end Restyle.Text
