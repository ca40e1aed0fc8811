import Restyle.Proofs.Text.Letter

/-! # Texts whatever their spacing

Texts that differ in the length and kind of their white space have the same
squeezed form. A recogniser that sees only whether there is white space finds
the same in them.
-/

namespace Restyle.Text

variable {α β : Type} {t u rest word : Text} {c : Char} {p : Char → Bool}

section Squeeze

variable {single : Char}

theorem mem_squeeze {inRun : Bool} (h : c ∈ squeeze p single inRun t) : c ∈ t ∨ c = single := by
  induction t generalizing inRun with
  | nil => exact absurd h List.not_mem_nil
  | cons d t ih =>
    rw [squeeze] at h
    split_ifs at h with hd hrun
    · exact (ih h).imp_left (List.mem_cons_of_mem d)
    · rcases List.mem_cons.mp h with rfl | h
      · exact Or.inr rfl
      · exact (ih h).imp_left (List.mem_cons_of_mem d)
    · rcases List.mem_cons.mp h with rfl | h
      · exact Or.inl List.mem_cons_self
      · exact (ih h).imp_left (List.mem_cons_of_mem d)

theorem squeeze_append_of_forall (h : ∀ c ∈ t, p c = false) (hne : t ≠ []) (inRun : Bool) (u : Text) :
    squeeze p single inRun (t ++ u) = t ++ squeeze p single false u := by
  induction t generalizing inRun with
  | nil => exact absurd rfl hne
  | cons d t ih =>
    obtain ⟨hd, h⟩ := List.forall_mem_cons.mp h
    rw [List.cons_append, squeeze, hd, List.cons_append]
    rcases eq_or_ne t [] with rfl | ht
    · rfl
    · rw [← ih h ht false]
      rfl

theorem squeeze_of_forall (h : ∀ c ∈ t, p c = false) (inRun : Bool) : squeeze p single inRun t = t := by
  rcases eq_or_ne t [] with rfl | hne
  · rfl
  · have happend : squeeze p single inRun (t ++ []) = t ++ squeeze p single false [] :=
      squeeze_append_of_forall h hne inRun []
    rwa [squeeze, List.append_nil] at happend

end Squeeze

theorem squeeze_blank (hc : isBlank c = true) (inRun : Bool) (t : Text) :
    squeeze isBlank ' ' inRun (c :: t) =
      (if inRun then [] else [' ']) ++ squeeze isBlank ' ' true t := by
  rw [squeeze, if_pos hc]

theorem squeeze_visible (hc : isBlank c = false) (inRun : Bool) (t : Text) :
    squeeze isBlank ' ' inRun (c :: t) = c :: squeezeBlanks t := by
  rw [squeeze, hc]
  rfl

theorem squeezeBlanks_cons (hc : isBlank c = false) (t : Text) :
    squeezeBlanks (c :: t) = c :: squeezeBlanks t :=
  squeeze_visible hc false t

theorem squeezeBlanks_blank (hc : isBlank c = true) (t : Text) :
    squeezeBlanks (c :: t) = ' ' :: squeeze isBlank ' ' true t :=
  squeeze_blank hc false t

/-- White space in front of a text is squeezed into one space, or none if white space comes before. -/
theorem squeeze_blank_append {w : Text} (hw : Blank w) (inRun : Bool) (t : Text) :
    squeeze isBlank ' ' inRun (w ++ t) = (if w = [] ∨ inRun = true then [] else [' ']) ++
      squeeze isBlank ' ' (inRun || !w.isEmpty) t := by
  induction w generalizing inRun with
  | nil => simp
  | cons c w ih =>
    obtain ⟨hc, hw⟩ := blank_cons.mp hw
    rw [List.cons_append, squeeze_blank hc, ih hw]
    cases inRun <;> simp

theorem squeeze_squeeze_append (inRun : Bool) (t u : Text) :
    squeeze isBlank ' ' inRun (squeeze isBlank ' ' inRun t ++ u) =
      squeeze isBlank ' ' inRun (t ++ u) := by
  induction t generalizing inRun with
  | nil => rfl
  | cons c t ih =>
    cases hc : isBlank c with
    | true =>
      have hspace : isBlank ' ' = true := by decide
      rw [squeeze_blank hc, List.cons_append, squeeze_blank hc, ← ih true]
      cases inRun with
      | true => rfl
      | false => exact squeeze_blank hspace false _
    | false =>
      have htail : squeezeBlanks (squeezeBlanks t ++ u) = squeezeBlanks (t ++ u) := ih false
      rw [squeeze_visible hc, List.cons_append, squeeze_visible hc, List.cons_append,
        squeeze_visible hc, htail]

theorem squeezeBlanks_append_congr {t' u' : Text} (ht : squeezeBlanks t' = squeezeBlanks t)
    (hu : ∀ inRun, squeeze isBlank ' ' inRun u' = squeeze isBlank ' ' inRun u) :
    squeezeBlanks (t' ++ u') = squeezeBlanks (t ++ u) := by
  have hbehind : ∀ inRun x, squeeze isBlank ' ' inRun (x ++ u') = squeeze isBlank ' ' inRun (x ++ u) := by
    intro inRun x
    induction x generalizing inRun with
    | nil => exact hu inRun
    | cons c x ih => simp only [List.cons_append, squeeze, ih]
  calc squeezeBlanks (t' ++ u')
    _ = squeezeBlanks (t' ++ u) := hbehind false t'
    _ = squeezeBlanks (squeezeBlanks t' ++ u) := (squeeze_squeeze_append false t' u).symm
    _ = squeezeBlanks (squeezeBlanks t ++ u) := by rw [ht]
    _ = squeezeBlanks (t ++ u) := squeeze_squeeze_append false t u

theorem squeezeBlanks_eq_nil_iff : squeezeBlanks t = [] ↔ t = [] := by
  rcases t with _ | ⟨c, t⟩
  · simp [squeezeBlanks, squeeze]
  · cases hc : isBlank c <;> simp [squeezeBlanks, squeeze, hc]

theorem trimStart_squeeze (inRun : Bool) (t : Text) :
    trimStart (squeeze isBlank ' ' inRun t) = squeezeBlanks (trimStart t) := by
  induction t generalizing inRun with
  | nil => rfl
  | cons c t ih =>
    cases hc : isBlank c with
    | true =>
      have hdrop : trimStart (c :: t) = trimStart t := List.dropWhile_cons_of_pos hc
      rw [squeeze_blank hc, hdrop, trimStart_append (by cases inRun <;> decide), ih]
    | false =>
      rw [squeeze_visible hc, trimStart_cons_of_not_blank hc, trimStart_cons_of_not_blank hc,
        squeezeBlanks_cons hc]

theorem trimStart_squeezeBlanks (t : Text) : trimStart (squeezeBlanks t) = squeezeBlanks (trimStart t) :=
  trimStart_squeeze false t

theorem takeWhile_squeezeBlanks (hp : ∀ c, isBlank c = true → p c = false) (t : Text) :
    (squeezeBlanks t).takeWhile p = t.takeWhile p := by
  induction t with
  | nil => rfl
  | cons c t ih =>
    cases hc : isBlank c with
    | true =>
      have hspace : p ' ' = false := hp ' ' (by decide)
      rw [squeezeBlanks_blank hc]
      simp [hspace, hp c hc]
    | false =>
      rw [squeezeBlanks_cons hc, List.takeWhile_cons, List.takeWhile_cons, ih]

theorem dropWhile_squeezeBlanks (hp : ∀ c, isBlank c = true → p c = false) (t : Text) :
    (squeezeBlanks t).dropWhile p = squeezeBlanks (t.dropWhile p) := by
  induction t with
  | nil => rfl
  | cons c t ih =>
    cases hc : isBlank c with
    | true =>
      have hspace : p ' ' = false := hp ' ' (by decide)
      rw [List.dropWhile_cons_of_neg (by simp [hp c hc]), squeezeBlanks_blank hc,
        List.dropWhile_cons_of_neg (by simp [hspace])]
    | false =>
      rw [squeezeBlanks_cons hc, List.dropWhile_cons, List.dropWhile_cons, ih,
        ← squeezeBlanks_cons hc]
      split_ifs <;> rfl

theorem squeezeBlanks_append (h : ∀ c ∈ t, isBlank c = false) (u : Text) :
    squeezeBlanks (t ++ u) = t ++ squeezeBlanks u := by
  induction t with
  | nil => rfl
  | cons c t ih =>
    obtain ⟨hc, h⟩ := List.forall_mem_cons.mp h
    rw [List.cons_append, squeezeBlanks_cons hc, ih h, List.cons_append]

theorem dropStart?_squeezeBlanks {start : Text} (h : ∀ c ∈ start, isBlank c = false) (t : Text) :
    dropStart? (squeezeBlanks t) start = (dropStart? t start).map squeezeBlanks := by
  induction start generalizing t with
  | nil => simp [dropStart?]
  | cons a start ih =>
    obtain ⟨ha, h⟩ := List.forall_mem_cons.mp h
    rcases t with _ | ⟨c, t⟩
    · rfl
    · cases hc : isBlank c with
      | true =>
        have hne : ∀ d, isBlank d = true → a ≠ d := by
          rintro d hd rfl
          exact Bool.false_ne_true (ha.symm.trans hd)
        rw [squeezeBlanks_blank hc, dropStart?, dropStart?, if_neg (hne ' ' (by decide)),
          if_neg (hne c hc)]
        rfl
      | false =>
        rw [squeezeBlanks_cons hc, dropStart?, dropStart?, ih h]
        split_ifs <;> rfl

theorem dropWord?_squeezeBlanks (h : ∀ l ∈ word, isFoldedNameChar l = true) (t : Text) :
    dropWord? word (squeezeBlanks t) = (dropWord? word t).map squeezeBlanks := by
  induction word generalizing t with
  | nil => cases t <;> rfl
  | cons l word ih =>
    obtain ⟨hl, h⟩ := List.forall_mem_cons.mp h
    rcases t with _ | ⟨c, t⟩
    · rfl
    · cases hc : isBlank c with
      | true =>
        have hne : ∀ d, isBlank d = true → fold l ≠ fold d := by
          intro d hd he
          have hname := isFoldedNameChar_of_blank hd
          rw [isFoldedNameChar, ← he] at hname
          exact Bool.false_ne_true (hname.symm.trans hl)
        rw [squeezeBlanks_blank hc, dropWord?, dropWord?, if_neg (hne ' ' (by decide)),
          if_neg (hne c hc)]
        rfl
      | false =>
        rw [squeezeBlanks_cons hc, dropWord?, dropWord?, ih h]
        split_ifs <;> rfl

/-- A recogniser that sees no more of white space than that there is some. -/
structure Recogniser.IgnoresSpacing (r : Recogniser α) : Prop where
  forward : r.Forward
  blank : ∀ c t, isBlank c = true → r none (c :: t) = none
  squeezed : ∀ t, r none (squeezeBlanks t) = (r none t).map (Prod.map id squeezeBlanks)

variable {r : Recogniser α}

theorem findFrom?_before (hr : r.Forward) (b b' : Option Char) (t : Text) :
    findFrom? r b t = findFrom? r b' t := by
  cases t with
  | nil => rfl
  | cons c t => rw [findFrom?, findFrom?, hr b, hr b']

theorem find?_cons (hr : r.Forward) (c : Char) (t : Text) :
    find? r (c :: t) = ((r none (c :: t)).map (·.1)).or (find? r t) := by
  rw [find?, findFrom?, findFrom?_before hr (some c) none t]
  cases r none (c :: t) <;> rfl

theorem Recogniser.IgnoresSpacing.find?_blank_cons (h : r.IgnoresSpacing) (hc : isBlank c = true)
    (t : Text) : find? r (c :: t) = find? r t := by
  rw [find?_cons h.forward, h.blank c t hc]
  rfl

theorem Recogniser.IgnoresSpacing.find?_squeezeBlanks (h : r.IgnoresSpacing) (t : Text) :
    find? r (squeezeBlanks t) = find? r t := by
  have hsqueeze : ∀ inRun, find? r (squeeze isBlank ' ' inRun t) = find? r t := by
    induction t with
    | nil => exact fun _ => rfl
    | cons c t ih =>
      intro inRun
      cases hc : isBlank c with
      | true =>
        rw [squeeze_blank hc, h.find?_blank_cons hc, ← ih true]
        cases inRun with
        | true => rfl
        | false => exact h.find?_blank_cons (by decide) _
      | false =>
        have hsame : (r none (c :: squeezeBlanks t)).map (·.1) = (r none (c :: t)).map (·.1) := by
          rw [← squeezeBlanks_cons hc, h.squeezed, Option.map_map]
          rfl
        rw [squeeze_visible hc, find?_cons h.forward, find?_cons h.forward, hsame]
        exact congrArg _ (ih false)
  exact hsqueeze false

theorem ignoresSpacing_literal {old : Text} (hne : old ≠ []) (h : ∀ c ∈ old, isBlank c = false)
    (new : Text) : (literal old new).IgnoresSpacing where
  forward := forward_literal old new
  blank c t hc := by
    obtain ⟨a, old, rfl⟩ := List.exists_cons_of_ne_nil hne
    have ha : a ≠ c := by
      rintro rfl
      exact Bool.false_ne_true ((h a List.mem_cons_self).symm.trans hc)
    simp [literal, dropStart?, ha]
  squeezed t := by
    rw [literal, literal, dropStart?_squeezeBlanks h, Option.map_map, Option.map_map]
    rfl

theorem contains_nil {part : Text} (hne : part ≠ []) : contains [] part = false := by
  obtain ⟨a, part, rfl⟩ := List.exists_cons_of_ne_nil hne
  rfl

theorem contains_cons (c : Char) (t part : Text) :
    contains (c :: t) part = (startsWith (c :: t) part || contains t part) := rfl

theorem contains_append_cons {part : Text} (hne : part ≠ []) (hc : c ∉ part) (t u : Text) :
    contains (t ++ c :: u) part = (contains t part || contains u part) := by
  induction t with
  | nil =>
    obtain ⟨a, part, rfl⟩ := List.exists_cons_of_ne_nil hne
    have ha : a ≠ c := fun h => hc (h ▸ List.mem_cons_self)
    simp [contains, startsWith, List.isPrefixOf, ha]
  | cons d t ih =>
    have hstart := dropStart?_append_cons hc (d :: t) u
    rw [List.cons_append] at hstart ⊢
    rw [contains_cons, ih, contains_cons, startsWith_eq_isSome, hstart, Option.isSome_map,
      ← startsWith_eq_isSome, Bool.or_assoc]

theorem contains_cons_of_notMem {part : Text} (hne : part ≠ []) (hc : c ∉ part) (t : Text) :
    contains (c :: t) part = contains t part := by
  have hcons := contains_append_cons hne hc [] t
  rwa [contains_nil hne, Bool.false_or] at hcons

theorem contains_blank_append {w part : Text} (hw : Blank w) (hne : part ≠ [])
    (hpart : ∀ c ∈ part, isBlank c = false) (t : Text) : contains (w ++ t) part = contains t part := by
  induction w with
  | nil => rfl
  | cons c w ih =>
    obtain ⟨hc, hw⟩ := blank_cons.mp hw
    have hmem : c ∉ part := fun h => Bool.false_ne_true ((hpart c h).symm.trans hc)
    rw [List.cons_append, contains_cons_of_notMem hne hmem, ih hw]

theorem contains_iff_isInfix {part : Text} : t.contains part = true ↔ part <:+: t := by
  induction t with
  | nil => simp [contains]
  | cons c t ih =>
    rw [contains, Bool.or_eq_true, ih, startsWith, List.isPrefixOf_iff_prefix, List.infix_cons_iff]

theorem contains_trim {part : Text} (h : contains t part = false) : contains (trim t) part = false := by
  obtain ⟨w, w', -, -, he⟩ := exists_eq_trim t
  rw [← Bool.not_eq_true, contains_iff_isInfix] at h ⊢
  refine fun hinfix => h ?_
  rw [he]
  exact hinfix.trans ⟨w, w', rfl⟩

theorem contains_eq_isSome_find? {part : Text} (h : part ≠ []) (t : Text) :
    t.contains part = (find? (literal part []) t).isSome := by
  induction t with
  | nil =>
    obtain ⟨a, part, rfl⟩ := List.exists_cons_of_ne_nil h
    rfl
  | cons c t ih =>
    rw [contains, find?_cons (forward_literal _ _), ih, startsWith_eq_isSome, literal]
    cases dropStart? (c :: t) part <;> rfl

theorem contains_squeezeBlanks {part : Text} (hne : part ≠ []) (h : ∀ c ∈ part, isBlank c = false)
    (t : Text) : (squeezeBlanks t).contains part = t.contains part := by
  rw [contains_eq_isSome_find? hne, (ignoresSpacing_literal hne h []).find?_squeezeBlanks,
    contains_eq_isSome_find? hne]

theorem substitute_eq_self {r : Recogniser Text} (hr : r.Forward) (h : find? r t = none) :
    substitute r t = t := by
  induction t with
  | nil => rfl
  | cons c t ih =>
    rw [find?_cons hr, Option.or_eq_none_iff, Option.map_eq_none_iff] at h
    rw [substitute_cons hr h.1, ih h.2]

theorem infix_substitute {r : Recogniser Text} (hr : r.Forward) {part : Text}
    (hout : ∀ t out rest, r none t = some (out, rest) → part <:+: out) (h : find? r t ≠ none) :
    part <:+: substitute r t := by
  induction t with
  | nil => exact absurd rfl h
  | cons c t ih =>
    cases hc : r none (c :: t) with
    | none =>
      rw [find?_cons hr, hc] at h
      rw [substitute_cons hr hc]
      exact (ih h).trans (List.suffix_cons c _).isInfix
    | some found =>
      obtain ⟨out, rest⟩ := found
      rw [substitute, substituteFrom, hc]
      exact (hout _ out rest hc).trans (List.prefix_append out _).isInfix

end Restyle.Text
