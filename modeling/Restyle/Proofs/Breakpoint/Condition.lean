import Restyle.Breakpoint.Condition
import Restyle.Proofs.Text.Spacing

/-! # Conditions in range form

A comparison is recognised whatever the white space in it, and what is written
for it has the mark of a final condition. So writing a condition in range form
a second time changes nothing, even if it is spaced differently.
-/

namespace Restyle.Condition

open Text

variable {t u rest out name number relation : Text} {c : Char}

theorem number?_eq (t : Text) : number? t =
    if (t.takeWhile isDigit).isEmpty then none
    else some (match dropStart? (t.dropWhile isDigit) "." with
      | none => (t.takeWhile isDigit, t.dropWhile isDigit)
      | some u =>
        if (u.takeWhile isDigit).isEmpty then (t.takeWhile isDigit, t.dropWhile isDigit)
        else (t.takeWhile isDigit ++ '.' :: u.takeWhile isDigit, u.dropWhile isDigit)) := by
  rw [number?]
  generalize t.takeWhile isDigit = whole
  dsimp only
  cases whole.isEmpty with
  | true => rfl
  | false =>
    rcases t.dropWhile isDigit with _ | ⟨c, u⟩
    · rfl
    · by_cases hc : c = '.'
      · subst hc
        cases h : (u.takeWhile isDigit).isEmpty <;> simp [dropStart?, h]
      · simp [dropStart?, hc, Ne.symm hc]

theorem pixels?_eq (t : Text) : pixels? t =
    (number? t.trimStart).bind fun p => (dropWord? "px" p.2).bind fun u =>
      (dropStart? u.trimStart ")").map fun rest => (p.1, rest) := by
  rw [pixels?]
  rcases number? t.trimStart with _ | ⟨number, u⟩
  · rfl
  · rcases h : dropWord? ['p', 'x'] u with _ | v
    · simp [h]
    · rcases hv : v.trimStart with _ | ⟨c, v⟩
      · simp [h, hv, dropStart?]
      · by_cases hc : c = ')'
        · subst hc
          simp [h, hv, dropStart?]
        · simp [h, hv, dropStart?, hc, Ne.symm hc]

theorem bound_eq (name relation : Text) (before : Option Char) (t : Text) :
    bound name relation before t =
      (dropStart? t "(").bind fun u => (dropWord? name u.trimStart).bind fun u =>
        (dropStart? u.trimStart ":").bind fun u =>
          (pixels? u).map fun p => (comparison "width" relation p.1, p.2) := by
  rcases t with _ | ⟨c, t⟩
  · rfl
  · by_cases hc : c = '('
    · subst hc
      rcases h : dropWord? name (trimStart t) with _ | u
      · simp [bound, dropStart?, h]
      · rcases hu : u.trimStart with _ | ⟨d, v⟩
        · simp [bound, dropStart?, h, hu]
        · by_cases hd : d = ':'
          · subst hd
            rcases hp : pixels? v with _ | p <;> simp [bound, dropStart?, h, hu, hp]
          · simp [bound, dropStart?, h, hu, hd, Ne.symm hd]
    · simp [bound, dropStart?, hc, Ne.symm hc]

theorem relation?_eq (t : Text) : relation? t =
    ([">=", "<=", ">", "<"] : List Text).findSome? fun r => (dropStart? t r).map fun u => (r, u) := by
  rcases t with _ | ⟨c, t⟩
  · rfl
  · by_cases hgreater : c = '>'
    · subst hgreater
      rcases t with _ | ⟨d, t⟩
      · rfl
      · by_cases hd : d = '='
        · subst hd
          simp [relation?, dropStart?]
        · simp [relation?, dropStart?, hd, Ne.symm hd]
    · by_cases hless : c = '<'
      · subst hless
        rcases t with _ | ⟨d, t⟩
        · rfl
        · by_cases hd : d = '='
          · subst hd
            simp [relation?, dropStart?]
          · simp [relation?, dropStart?, hd, Ne.symm hd]
      · simp [relation?, dropStart?, hgreater, hless, Ne.symm hgreater, Ne.symm hless]

def sizes : List Text :=
  ["width", "inline-size", "block-size"]

theorem range_eq (before : Option Char) (t : Text) : range before t =
    (dropStart? t "(").bind fun u => (dropAnyWord? sizes u.trimStart).bind fun s =>
      (relation? s.2.trimStart).bind fun r => (pixels? r.2).map fun p =>
        (comparison (lower (u.trimStart.take (u.trimStart.length - s.2.length))) r.1 p.1, p.2) := by
  rcases t with _ | ⟨c, t⟩
  · rfl
  · by_cases hc : c = '('
    · subst hc
      have hsizes : dropAnyWord? ["width", "inline-size", "block-size"] (trimStart t) =
          dropAnyWord? sizes (trimStart t) := rfl
      rw [range]
      dsimp only
      rw [Option.bind_eq_bind, Option.bind_some, hsizes]
      rcases h : dropAnyWord? sizes (trimStart t) with _ | ⟨word, u⟩
      · simp [dropStart?, h]
      · rcases hr : relation? u.trimStart with _ | ⟨relation, v⟩
        · simp [dropStart?, h, hr]
        · rcases hp : pixels? v with _ | ⟨number, rest⟩
          · simp [dropStart?, h, hr, hp]
          · simp [dropStart?, h, hr, hp]
    · simp [range, dropStart?, hc, Ne.symm hc]

theorem isDigit_of_blank (h : isBlank c = true) : isDigit c = false := by
  have hall : ((codePoints blankRanges).all fun n => !isDigit (Char.ofNat n)) = true := by
    decide +kernel
  have hc := List.all_eq_true.mp hall c.toNat (toNat_mem_codePoints h)
  rw [Char.ofNat_toNat] at hc
  simpa using hc

theorem number?_squeezeBlanks (t : Text) :
    number? (squeezeBlanks t) = (number? t).map (Prod.map id squeezeBlanks) := by
  have hdigit : ∀ c, isBlank c = true → isDigit c = false := fun c => isDigit_of_blank
  rw [number?_eq, number?_eq, takeWhile_squeezeBlanks hdigit, dropWhile_squeezeBlanks hdigit,
    dropStart?_squeezeBlanks (by decide)]
  cases (t.takeWhile isDigit).isEmpty with
  | true => rfl
  | false =>
    rcases dropStart? (t.dropWhile isDigit) "." with _ | u
    · rfl
    · simp only [Option.map_some, takeWhile_squeezeBlanks hdigit, dropWhile_squeezeBlanks hdigit]
      cases (u.takeWhile isDigit).isEmpty <;> rfl

theorem pixels?_squeezeBlanks (t : Text) :
    pixels? (squeezeBlanks t) = (pixels? t).map (Prod.map id squeezeBlanks) := by
  have hword : ∀ l ∈ ("px" : Text), isFoldedNameChar l = true := by decide
  have hclose : ∀ l ∈ (")" : Text), isBlank l = false := by decide
  simp only [pixels?_eq, trimStart_squeezeBlanks, number?_squeezeBlanks, Option.bind_map,
    Option.map_bind, Function.comp_def, Prod.map, dropWord?_squeezeBlanks hword,
    dropStart?_squeezeBlanks hclose, Option.map_map, id]

theorem findSome?_squeezeBlanks {words : List Text} {f : Text → Text → Option Text}
    (h : ∀ w ∈ words, f w (squeezeBlanks t) = (f w t).map squeezeBlanks) :
    (words.findSome? fun w => (f w (squeezeBlanks t)).map fun u => (w, u)) =
      (words.findSome? fun w => (f w t).map fun u => (w, u)).map (Prod.map id squeezeBlanks) := by
  induction words with
  | nil => rfl
  | cons w words ih =>
    obtain ⟨hw, h⟩ := List.forall_mem_cons.mp h
    rw [List.findSome?_cons, List.findSome?_cons, hw, ih h]
    cases f w t <;> rfl

theorem relation?_squeezeBlanks (t : Text) :
    relation? (squeezeBlanks t) = (relation? t).map (Prod.map id squeezeBlanks) := by
  have hvisible : ∀ r ∈ ([">=", "<=", ">", "<"] : List Text), ∀ c ∈ r, isBlank c = false := by
    decide
  rw [relation?_eq, relation?_eq]
  exact findSome?_squeezeBlanks (f := fun r t => dropStart? t r) fun r hr =>
    dropStart?_squeezeBlanks (hvisible r hr) t

theorem dropAnyWord?_sizes (t : Text) : dropAnyWord? sizes (squeezeBlanks t) =
    (dropAnyWord? sizes t).map (Prod.map id squeezeBlanks) := by
  have hnames : ∀ w ∈ sizes, ∀ l ∈ w, isFoldedNameChar l = true := by decide
  exact findSome?_squeezeBlanks fun w hw => dropWord?_squeezeBlanks (hnames w hw) t

theorem ignoresSpacing_bound (hname : ∀ l ∈ name, isFoldedNameChar l = true) (relation : Text) :
    (bound name relation).IgnoresSpacing where
  forward _ _ := rfl
  blank c t hc := by
    have hne : '(' ≠ c := by
      rintro rfl
      exact absurd hc (by decide)
    rw [bound_eq]
    simp [dropStart?, hne]
  squeezed t := by
    have hopen : ∀ l ∈ ("(" : Text), isBlank l = false := by decide
    have hcolon : ∀ l ∈ (":" : Text), isBlank l = false := by decide
    simp only [bound_eq, dropStart?_squeezeBlanks hopen, dropStart?_squeezeBlanks hcolon,
      dropWord?_squeezeBlanks hname, trimStart_squeezeBlanks, pixels?_squeezeBlanks,
      Option.bind_map, Option.map_bind, Option.map_map, Function.comp_def, Prod.map, id]

theorem isBlank_of_isFoldedNameChar (h : isFoldedNameChar c = true) : isBlank c = false := by
  cases hc : isBlank c with
  | true => exact absurd (isFoldedNameChar_of_blank hc) (by simp [h])
  | false => rfl

theorem exists_of_dropWord? {word : Text} (hword : ∀ l ∈ word, isFoldedNameChar l = true)
    (h : dropWord? word t = some rest) :
    ∃ name, t = name ++ rest ∧ ∀ c ∈ name, isFoldedNameChar c = true := by
  obtain ⟨name, rfl, hname⟩ := dropWord?_eq_some_iff.mp h
  refine ⟨name, rfl, fun c hc => ?_⟩
  have hfold := List.mem_map_of_mem (f := fold) hc
  rw [hname] at hfold
  obtain ⟨l, hl, he⟩ := List.mem_map.mp hfold
  rw [isFoldedNameChar, ← he]
  exact hword l hl

theorem exists_of_dropAnyWord? {word : Text} (h : dropAnyWord? sizes t = some (word, rest)) :
    ∃ size, t = size ++ rest ∧ ∀ c ∈ size, isFoldedNameChar c = true := by
  have hnames : ∀ w ∈ sizes, ∀ l ∈ w, isFoldedNameChar l = true := by decide
  obtain ⟨w, hw, hdrop⟩ := List.exists_of_findSome?_eq_some h
  obtain ⟨u, hu, he⟩ := Option.map_eq_some_iff.mp hdrop
  obtain ⟨-, rfl⟩ := Prod.mk.inj he
  exact exists_of_dropWord? (hnames w hw) hu

theorem take_squeezeBlanks {word : Text} (h : dropAnyWord? sizes t = some (word, rest)) :
    (squeezeBlanks t).take ((squeezeBlanks t).length - (squeezeBlanks rest).length) =
      t.take (t.length - rest.length) := by
  obtain ⟨size, rfl, hname⟩ := exists_of_dropAnyWord? h
  have hvisible : ∀ c ∈ size, isBlank c = false := fun c hc =>
    isBlank_of_isFoldedNameChar (hname c hc)
  rw [squeezeBlanks_append hvisible]
  simp

theorem ignoresSpacing_range : range.IgnoresSpacing where
  forward _ _ := rfl
  blank c t hc := by
    have hne : '(' ≠ c := by
      rintro rfl
      exact absurd hc (by decide)
    rw [range_eq]
    simp [dropStart?, hne]
  squeezed t := by
    have hopen : ∀ l ∈ ("(" : Text), isBlank l = false := by decide
    simp only [range_eq, dropStart?_squeezeBlanks hopen, Option.bind_map, Option.map_bind,
      Function.comp_def, trimStart_squeezeBlanks]
    refine congrArg _ (funext fun u => ?_)
    rw [dropAnyWord?_sizes]
    rcases h : dropAnyWord? sizes u.trimStart with _ | ⟨word, rest⟩
    · rfl
    · simp only [Option.map_some, Prod.map, Option.bind_some, trimStart_squeezeBlanks,
        relation?_squeezeBlanks, pixels?_squeezeBlanks, take_squeezeBlanks h, Option.bind_map,
        Option.map_map, Function.comp_def, id]

def isInner (c : Char) : Bool :=
  isBlank c || isFoldedNameChar c || isDigit c || [':', '.', '<', '>', '='].contains c

/-- The rest of a text behind what may stand in a comparison. -/
def Passes (t rest : Text) : Prop :=
  ∃ p, t = p ++ rest ∧ ∀ c ∈ p, isInner c = true

theorem Passes.trans (h : Passes t u) (h' : Passes u rest) : Passes t rest := by
  obtain ⟨p, rfl, hp⟩ := h
  obtain ⟨q, rfl, hq⟩ := h'
  refine ⟨p ++ q, (List.append_assoc p q rest).symm, fun c hc => ?_⟩
  exact (List.mem_append.mp hc).elim (hp c) (hq c)

theorem passes_dropWhile {p : Char → Bool} (hp : ∀ c, p c = true → isInner c = true) (t : Text) :
    Passes t (t.dropWhile p) :=
  ⟨t.takeWhile p, List.takeWhile_append_dropWhile.symm, fun c hc => hp c (List.mem_takeWhile_imp hc)⟩

theorem isInner_of_blank (h : isBlank c = true) : isInner c = true := by
  simp [isInner, h]

theorem isInner_of_digit (h : isDigit c = true) : isInner c = true := by
  simp [isInner, h]

theorem isInner_of_name (h : isFoldedNameChar c = true) : isInner c = true := by
  simp [isInner, h]

theorem passes_trimStart (t : Text) : Passes t t.trimStart :=
  passes_dropWhile (fun _ => isInner_of_blank) t

theorem passes_dropWord? {word : Text} (hword : ∀ l ∈ word, isFoldedNameChar l = true)
    (h : dropWord? word t = some rest) : Passes t rest := by
  obtain ⟨name, rfl, hname⟩ := exists_of_dropWord? hword h
  exact ⟨name, rfl, fun c hc => isInner_of_name (hname c hc)⟩

theorem passes_dropStart? {start : Text} (hstart : ∀ c ∈ start, isInner c = true)
    (h : dropStart? t start = some rest) : Passes t rest :=
  ⟨start, dropStart?_eq_some.mp h, hstart⟩

def Writable (t : Text) : Prop :=
  ∀ c ∈ t, isInner c = true ∧ isBlank c = false

instance (t : Text) : Decidable (Writable t) :=
  decidable_of_iff (t.all (fun c => isInner c && !isBlank c) = true) (by simp [Writable])

theorem Writable.append (ht : Writable t) (hu : Writable u) : Writable (t ++ u) := by
  intro c hc
  exact (List.mem_append.mp hc).elim (ht c) (hu c)

theorem writable_takeWhile_isDigit (t : Text) : Writable (t.takeWhile isDigit) := by
  intro c hc
  have hdigit : isDigit c = true := List.mem_takeWhile_imp hc
  refine ⟨isInner_of_digit hdigit, ?_⟩
  cases hb : isBlank c with
  | true => exact absurd (isDigit_of_blank hb) (by simp [hdigit])
  | false => rfl

theorem number?_spec (h : number? t = some (number, rest)) : Passes t rest ∧ Writable number := by
  have hdigits : ∀ u : Text, Passes u (u.dropWhile isDigit) :=
    passes_dropWhile fun _ => isInner_of_digit
  rw [number?_eq] at h
  split_ifs at h
  rw [Option.some.injEq] at h
  rcases hdot : dropStart? (t.dropWhile isDigit) "." with _ | u
  · rw [hdot] at h
    obtain ⟨rfl, rfl⟩ := Prod.mk.inj h
    exact ⟨hdigits t, writable_takeWhile_isDigit t⟩
  · rw [hdot] at h
    dsimp only at h
    split_ifs at h
    · obtain ⟨rfl, rfl⟩ := Prod.mk.inj h
      exact ⟨hdigits t, writable_takeWhile_isDigit t⟩
    · obtain ⟨rfl, rfl⟩ := Prod.mk.inj h
      refine ⟨((hdigits t).trans (passes_dropStart? (by decide) hdot)).trans (hdigits u), ?_⟩
      have hpoint : Writable ['.'] := by decide
      exact (writable_takeWhile_isDigit t).append (hpoint.append (writable_takeWhile_isDigit u))

theorem pixels?_spec (h : pixels? t = some (number, rest)) :
    Passes t (')' :: rest) ∧ Writable number := by
  rw [pixels?_eq] at h
  obtain ⟨⟨n, u⟩, hnumber, h⟩ := Option.bind_eq_some_iff.mp h
  obtain ⟨v, hpx, h⟩ := Option.bind_eq_some_iff.mp h
  obtain ⟨w, hclose, he⟩ := Option.map_eq_some_iff.mp h
  obtain ⟨rfl, rfl⟩ := Prod.mk.inj he
  obtain ⟨hpasses, hwritable⟩ := number?_spec hnumber
  have hv : v.trimStart = ')' :: w := dropStart?_eq_some.mp hclose
  have hunit : Passes u v := passes_dropWord? (by decide) hpx
  exact ⟨hv ▸ (((passes_trimStart t).trans hpasses).trans hunit).trans (passes_trimStart v),
    hwritable⟩

/-- What is recognised as a comparison stands in parentheses, without further ones inside; what is
written for it names a size, a relation and a number. -/
def Recognised (t out rest : Text) : Prop :=
  Passes t.tail (')' :: rest) ∧ t.head? = some '(' ∧
    ∃ size relation number, out = comparison size relation number ∧
      Writable (size ++ relation ++ number)

theorem recognised_bound (hname : ∀ l ∈ name, isFoldedNameChar l = true) (hrelation : Writable relation)
    {before : Option Char} (h : bound name relation before t = some (out, rest)) :
    Recognised t out rest := by
  rw [bound_eq] at h
  obtain ⟨u, hopen, h⟩ := Option.bind_eq_some_iff.mp h
  obtain ⟨v, hword, h⟩ := Option.bind_eq_some_iff.mp h
  obtain ⟨w, hcolon, h⟩ := Option.bind_eq_some_iff.mp h
  obtain ⟨⟨number, rest⟩, hpixels, he⟩ := Option.map_eq_some_iff.mp h
  obtain ⟨rfl, rfl⟩ := Prod.mk.inj he
  obtain ⟨hpasses, hnumber⟩ := pixels?_spec hpixels
  obtain rfl : t = '(' :: u := dropStart?_eq_some.mp hopen
  have hu : Passes u v := (passes_trimStart u).trans (passes_dropWord? hname hword)
  have hv : Passes v w := (passes_trimStart v).trans (passes_dropStart? (by decide) hcolon)
  have hwidth : Writable "width" := by decide
  exact ⟨(hu.trans hv).trans hpasses, rfl, "width", relation, number, rfl,
    (hwidth.append hrelation).append hnumber⟩

theorem writable_lower {size : Text} (h : ∀ c ∈ size, isFoldedNameChar c = true) :
    Writable (lower size) := by
  intro c hc
  obtain ⟨d, hd, rfl⟩ := List.mem_map.mp hc
  have hname : isFoldedNameChar d.toLower = true := by
    rw [isFoldedNameChar, fold_toLower]
    exact h d hd
  exact ⟨isInner_of_name hname, isBlank_of_isFoldedNameChar hname⟩

theorem relation?_spec (h : relation? t = some (relation, rest)) :
    Passes t rest ∧ Writable relation := by
  rw [relation?_eq] at h
  have hrelations : ∀ r ∈ ([">=", "<=", ">", "<"] : List Text), Writable r := by
    simp only [List.forall_mem_cons]
    decide
  obtain ⟨r, hr, hdrop⟩ := List.exists_of_findSome?_eq_some h
  obtain ⟨u, hu, he⟩ := Option.map_eq_some_iff.mp hdrop
  obtain ⟨rfl, rfl⟩ := Prod.mk.inj he
  have hwritable := hrelations r hr
  exact ⟨passes_dropStart? (fun c hc => (hwritable c hc).1) hu, hwritable⟩

theorem recognised_range {before : Option Char} (h : range before t = some (out, rest)) :
    Recognised t out rest := by
  rw [range_eq] at h
  obtain ⟨u, hopen, h⟩ := Option.bind_eq_some_iff.mp h
  obtain ⟨⟨word, v⟩, hword, h⟩ := Option.bind_eq_some_iff.mp h
  obtain ⟨⟨relation, w⟩, hrelation, h⟩ := Option.bind_eq_some_iff.mp h
  obtain ⟨⟨number, rest⟩, hpixels, he⟩ := Option.map_eq_some_iff.mp h
  obtain ⟨rfl, rfl⟩ := Prod.mk.inj he
  obtain ⟨hpasses, hnumber⟩ := pixels?_spec hpixels
  obtain ⟨hv, hrelation⟩ := relation?_spec hrelation
  obtain ⟨size, hsize, hname⟩ := exists_of_dropAnyWord? hword
  obtain rfl : t = '(' :: u := dropStart?_eq_some.mp hopen
  have hu : Passes u.trimStart v := ⟨size, hsize, fun c hc => isInner_of_name (hname c hc)⟩
  have htake : u.trimStart.take (u.trimStart.length - v.length) = size := by
    rw [hsize]
    simp
  refine ⟨((((passes_trimStart u).trans hu).trans (passes_trimStart v)).trans hv).trans hpasses, rfl,
    lower size, relation, number, ?_, ((writable_lower hname).append hrelation).append hnumber⟩
  dsimp only
  rw [htake]

def comparisons : List (Recogniser Text) :=
  [bound "min-width" ">=", bound "max-width" "<=", range]

theorem ignoresSpacing_of_mem {r : Recogniser Text} (hr : r ∈ comparisons) : r.IgnoresSpacing := by
  simp only [comparisons, List.mem_cons, List.not_mem_nil, or_false] at hr
  rcases hr with rfl | rfl | rfl
  · exact ignoresSpacing_bound (by decide) _
  · exact ignoresSpacing_bound (by decide) _
  · exact ignoresSpacing_range

theorem recognised_of_mem {r : Recogniser Text} (hr : r ∈ comparisons)
    (h : r none t = some (out, rest)) : Recognised t out rest := by
  simp only [comparisons, List.mem_cons, List.not_mem_nil, or_false] at hr
  rcases hr with rfl | rfl | rfl
  · exact recognised_bound (by decide) (by decide) h
  · exact recognised_bound (by decide) (by decide) h
  · exact recognised_range h

theorem normalize_eq (t : Text) : normalize t =
    if t.contains "to-rem(" then t else comparisons.foldl (fun t r => substitute r t) t := rfl

/-- A condition that is final, or in which nothing is left to write. -/
def Settled (t : Text) : Prop :=
  t.contains "to-rem(" = true ∨ ∀ r ∈ comparisons, find? r t = none

theorem infix_comparison (size relation number : Text) :
    ("to-rem(" : Text) <:+: comparison size relation number := by
  refine ⟨"(" ++ size ++ " " ++ relation ++ " ", number ++ "px))", ?_⟩
  simp [comparison]

theorem foldl_substitute_cases {rs : List (Recogniser Text)} (hrs : ∀ r ∈ rs, r ∈ comparisons)
    (t : Text) : ("to-rem(" : Text) <:+: rs.foldl (fun t r => substitute r t) t ∨
      rs.foldl (fun t r => substitute r t) t = t ∧ ∀ r ∈ rs, find? r t = none := by
  induction rs generalizing t with
  | nil => simp
  | cons r rs ih =>
    obtain ⟨hr, hrs⟩ := List.forall_mem_cons.mp hrs
    have hforward := (ignoresSpacing_of_mem hr).forward
    rw [List.foldl_cons]
    by_cases hfind : find? r t = none
    · rw [substitute_eq_self hforward hfind]
      exact (ih hrs t).imp_right fun h => ⟨h.1, List.forall_mem_cons.mpr ⟨hfind, h.2⟩⟩
    · have hmark : ("to-rem(" : Text) <:+: substitute r t := by
        refine infix_substitute hforward (fun u out rest hu => ?_) hfind
        obtain ⟨-, -, size, relation, number, rfl, -⟩ := recognised_of_mem hr hu
        exact infix_comparison size relation number
      refine Or.inl ((ih hrs (substitute r t)).elim id fun h => ?_)
      rwa [h.1]

theorem settled_normalize (t : Text) : Settled (normalize t) := by
  rw [normalize_eq]
  split_ifs with hmark
  · exact Or.inl hmark
  · rcases foldl_substitute_cases (fun _ => id) t with h | ⟨h, hfind⟩
    · exact Or.inl (contains_iff_isInfix.mpr h)
    · rw [h]
      exact Or.inr hfind

theorem Settled.normalize_eq (h : Settled t) : normalize t = t := by
  rw [Condition.normalize_eq]
  split_ifs with hmark
  · rfl
  · have hfind := h.resolve_left hmark
    have hkeep : ∀ r ∈ comparisons, substitute r t = t := fun r hr =>
      substitute_eq_self (ignoresSpacing_of_mem hr).forward (hfind r hr)
    simp only [comparisons, List.forall_mem_cons] at hkeep
    simp only [comparisons, List.foldl_cons, List.foldl_nil, hkeep.1, hkeep.2.1, hkeep.2.2.1]

theorem settled_squeezeBlanks (t : Text) : Settled (squeezeBlanks t) ↔ Settled t := by
  have hmark : ∀ c ∈ ("to-rem(" : Text), isBlank c = false := by decide
  refine or_congr ?_ (forall₂_congr fun r hr => ?_)
  · rw [contains_squeezeBlanks (by decide) hmark]
  · rw [(ignoresSpacing_of_mem hr).find?_squeezeBlanks]

/-- A text, and what it becomes where comparisons in it are written in range form. -/
inductive Rewritten : Text → Text → Prop
  | nil : Rewritten [] []
  | keep (c : Char) {t u : Text} (h : Rewritten t u) : Rewritten (c :: t) (c :: u)
  | write {inner size relation number t u : Text} (hinner : ∀ c ∈ inner, isInner c = true)
      (hnew : Writable (size ++ relation ++ number)) (h : Rewritten t u) :
      Rewritten ('(' :: (inner ++ ')' :: t)) (comparison size relation number ++ u)

theorem Recognised.exists_inner (h : Recognised t out rest) :
    ∃ inner, t = '(' :: (inner ++ ')' :: rest) ∧ ∀ c ∈ inner, isInner c = true := by
  obtain ⟨⟨inner, htail, hinner⟩, hhead, -⟩ := h
  obtain ⟨u, rfl⟩ := List.head?_eq_some_iff.mp hhead
  exact ⟨inner, congrArg ('(' :: ·) htail, hinner⟩

theorem rewritten_substitute {r : Recogniser Text} (hr : r ∈ comparisons) (t : Text) :
    Rewritten t (substitute r t) := by
  have hforward := (ignoresSpacing_of_mem hr).forward
  -- The rest behind a comparison is shorter than the text, but no tail of it that induction gives.
  induction h : t.length using Nat.strong_induction_on generalizing t with
  | _ n ih =>
    rcases t with _ | ⟨c, t⟩
    · exact .nil
    · rcases hc : r none (c :: t) with _ | ⟨out, rest⟩
      · rw [substitute_cons hforward hc]
        exact .keep c (ih t.length (by simp [← h]) t rfl)
      · have hrec := recognised_of_mem hr hc
        obtain ⟨inner, ht, hinner⟩ := hrec.exists_inner
        obtain ⟨-, -, size, relation, number, rfl, hnew⟩ := hrec
        have hcut : c :: t = ('(' :: (inner ++ [')'])) ++ rest := by simp [ht]
        rw [hcut] at hc
        have hsub := substitute_append hforward (List.cons_ne_nil _ _) hc
        rw [← hcut] at hsub
        rw [hsub, ht]
        refine .write hinner hnew (ih rest.length ?_ rest rfl)
        rw [← h, ht]
        simp
        omega

theorem normalize_induction {P : Text → Prop} (h : ∀ t u, Rewritten t u → P t → P u) (ht : P t) :
    P (normalize t) := by
  have hfoldl : ∀ rs : List (Recogniser Text), (∀ r ∈ rs, r ∈ comparisons) → ∀ t, P t →
      P (rs.foldl (fun t r => substitute r t) t) := by
    intro rs hrs
    induction rs with
    | nil => exact fun _ => id
    | cons r rs ih =>
      obtain ⟨hr, hrs⟩ := List.forall_mem_cons.mp hrs
      exact fun t ht => ih hrs _ (h t _ (rewritten_substitute hr t) ht)
  rw [normalize_eq]
  split_ifs
  · exact ht
  · exact hfoldl comparisons (fun _ => id) t ht

theorem Rewritten.head?_eq (h : Rewritten t u) : u.head? = t.head? := by
  cases h <;> rfl

theorem Rewritten.getLast?_eq (h : Rewritten t u) : u.getLast? = t.getLast? := by
  induction h with
  | nil => rfl
  | keep c h ih => rw [List.getLast?_cons, List.getLast?_cons, ih]
  | @write inner size relation number t u _ _ _ ih =>
    have hold : '(' :: (inner ++ ')' :: t) = ('(' :: inner ++ [')']) ++ t := by simp
    have hnew : comparison size relation number =
        ("(" ++ size ++ " " ++ relation ++ " to-rem(" ++ number ++ "px)") ++ [')'] := by
      simp [comparison]
    simp only [hold, hnew, List.getLast?_append, ih]
    rfl

end Restyle.Condition
