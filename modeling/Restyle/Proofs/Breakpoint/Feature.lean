import Restyle.Proofs.Breakpoint.Condition
import Restyle.Proofs.Text.Rewriting

/-! # Media features with pixels

A media feature that compares a size with a number of pixels, in parentheses,
and its range form. The recognisers of a condition read exactly these features,
and no feature begins inside of a range form.
-/

namespace Restyle.Condition

open Text

structure Digits (t : Text) : Prop where
  ne_nil : t ≠ []
  digit : ∀ c ∈ t, isDigit c = true

inductive Number : Text → Prop
  | whole {t : Text} (ht : Digits t) : Number t
  | fraction {t u : Text} (ht : Digits t) (hu : Digits u) : Number (t ++ '.' :: u)

/-- A number of pixels with white space around it, up to the closing parenthesis. -/
inductive Pixels (number : Text) : Text → Prop
  | spell {w unit w' : Text} (hw : Blank w) (hn : Number number)
      (hunit : unit.map fold = ("px" : Text).map fold) (hw' : Blank w') :
      Pixels number (w ++ (number ++ (unit ++ (w' ++ [')']))))

/-- A bound of the width, as `(min-width: 10px)`, with the name in any case. -/
inductive Bound (name relation : Text) : Grammar
  | spell {w spelled w' number p : Text} (hw : Blank w) (hname : spelled.map fold = name.map fold)
      (hw' : Blank w') (hp : Pixels number p) :
      Bound name relation ('(' :: (w ++ (spelled ++ (w' ++ ':' :: p))))
        (comparison "width" relation number)

def relations : List Text :=
  [">=", "<=", ">", "<"]

/-- A range of a size, as `(inline-size >= 10px)`, with the size in any case. -/
inductive Range : Grammar
  | spell {size relation w spelled w' number p : Text} (hsize : size ∈ sizes)
      (hrelation : relation ∈ relations) (hw : Blank w)
      (hname : spelled.map fold = size.map fold) (hw' : Blank w') (hp : Pixels number p) :
      Range ('(' :: (w ++ (spelled ++ (w' ++ (relation ++ p)))))
        (comparison (lower spelled) relation number)

/-- A feature that compares a size with a number of pixels, and its range form. -/
def Feature : Grammar :=
  Grammar.or (Grammar.or (Bound "min-width" ">=") (Bound "max-width" "<=")) Range

variable {t u w p f name word number relation size spelled rest out : Text} {c : Char}

theorem isDigit_of_letter (h : fold c ∈ ['m', 'w', 'i', 'b', 'p']) :
    isDigit c = false ∧ c ≠ '.' := by
  have hletters : ∀ l ∈ ['m', 'w', 'i', 'b', 'p'], isNameChar l = true ∧ l ≠ 's' ∧ l ≠ 'k' := by
    decide
  obtain ⟨hname, hs, hk⟩ := hletters _ h
  have hall : ∀ n < 128, fold (Char.ofNat n) ∈ ['m', 'w', 'i', 'b', 'p'] →
      isDigit (Char.ofNat n) = false ∧ Char.ofNat n ≠ '.' := by decide +kernel
  have hc := hall c.toNat (toNat_lt_of_isNameChar (isNameChar_of_fold hname hs hk))
  rw [Char.ofNat_toNat] at hc
  exact hc h

theorem exists_cons_of_map_fold {l : Char} (h : t.map fold = (l :: word).map fold) :
    ∃ c u, t = c :: u ∧ fold c = fold l := by
  obtain _ | ⟨c, u⟩ := t
  · simp at h
  · exact ⟨c, u, rfl, (List.cons.inj h).1⟩

theorem Digits.takeWhile_append (h : Digits t) (hc : isDigit c = false) (u : Text) :
    (t ++ c :: u).takeWhile isDigit = t ∧ (t ++ c :: u).dropWhile isDigit = c :: u := by
  constructor
  · rw [takeWhile_append_cons hc, List.takeWhile_eq_self_iff]
    exact h.digit
  · rw [List.dropWhile_append_of_pos h.digit, List.dropWhile_cons_of_neg (by simp [hc])]

theorem digits_takeWhile (h : (t.takeWhile isDigit).isEmpty = false) :
    Digits (t.takeWhile isDigit) :=
  ⟨by simpa using h, fun _ hc => List.mem_takeWhile_imp hc⟩

theorem number_of_number? (h : number? t = some (number, rest)) :
    Number number ∧ t = number ++ rest := by
  have hsplit : ∀ u : Text, u = u.takeWhile isDigit ++ u.dropWhile isDigit := fun u =>
    List.takeWhile_append_dropWhile.symm
  rw [number?_eq] at h
  cases hwhole : (t.takeWhile isDigit).isEmpty with
  | true => simp [hwhole] at h
  | false =>
    rw [hwhole, if_neg Bool.false_ne_true, Option.some.injEq] at h
    rcases hdot : dropStart? (t.dropWhile isDigit) "." with _ | u
    · rw [hdot] at h
      obtain ⟨rfl, rfl⟩ := Prod.mk.inj h
      exact ⟨.whole (digits_takeWhile hwhole), hsplit t⟩
    · rw [hdot] at h
      dsimp only at h
      split_ifs at h with hfraction
      · obtain ⟨rfl, rfl⟩ := Prod.mk.inj h
        exact ⟨.whole (digits_takeWhile hwhole), hsplit t⟩
      · obtain ⟨rfl, rfl⟩ := Prod.mk.inj h
        refine ⟨.fraction (digits_takeWhile hwhole) (digits_takeWhile (by simpa using hfraction)), ?_⟩
        have hrest : t.dropWhile isDigit = '.' :: u := dropStart?_eq_some.mp hdot
        rw [List.append_assoc, List.cons_append, ← hsplit u, ← hrest]
        exact hsplit t

theorem Number.number?_append (h : Number number) (hc : isDigit c = false) (hdot : c ≠ '.')
    (rest : Text) : number? (number ++ c :: rest) = some (number, c :: rest) := by
  have hpoint : isDigit '.' = false := by decide
  rw [number?_eq]
  cases h with
  | whole ht =>
    obtain ⟨htake, hdrop⟩ := ht.takeWhile_append hc rest
    simp [htake, hdrop, ht.ne_nil, dropStart?, Ne.symm hdot]
  | @fraction t u ht hu =>
    have hassoc : t ++ '.' :: u ++ c :: rest = t ++ '.' :: (u ++ c :: rest) := by simp
    obtain ⟨htake, hdrop⟩ := ht.takeWhile_append hpoint (u ++ c :: rest)
    obtain ⟨hutake, hudrop⟩ := hu.takeWhile_append hc rest
    simp [hassoc, htake, hdrop, ht.ne_nil, hu.ne_nil, dropStart?, hutake, hudrop]

theorem Number.exists_cons (h : Number number) :
    ∃ d u, number = d :: u ∧ isDigit d = true := by
  have hdigits : ∀ {t : Text}, Digits t → ∃ d u, t = d :: u ∧ isDigit d = true := by
    intro t ht
    obtain ⟨d, u, rfl⟩ := List.exists_cons_of_ne_nil ht.ne_nil
    exact ⟨d, u, rfl, ht.digit d List.mem_cons_self⟩
  cases h with
  | whole ht => exact hdigits ht
  | fraction ht hu =>
    obtain ⟨d, v, rfl, hd⟩ := hdigits ht
    exact ⟨d, _, rfl, hd⟩

theorem Number.trimStart_append (h : Number number) (t : Text) :
    trimStart (number ++ t) = number ++ t := by
  obtain ⟨d, u, rfl, hd⟩ := h.exists_cons
  refine trimStart_cons_of_not_blank ?_ _
  cases hb : isBlank d with
  | true => exact absurd (isDigit_of_blank hb) (by simp [hd])
  | false => rfl

theorem exists_blank_of_trimStart (h : trimStart t = u) : ∃ w, Blank w ∧ t = w ++ u :=
  h ▸ exists_eq_trimStart t

theorem trimStart_spelled {l : Char} (hl : fold l ∈ ['m', 'w', 'i', 'b', 'p']) (hw : Blank w)
    (hname : spelled.map fold = (l :: word).map fold) (t : Text) :
    trimStart (w ++ (spelled ++ t)) = spelled ++ t := by
  have hletters : ∀ l ∈ ['m', 'w', 'i', 'b', 'p'], isNameChar l = true := by decide
  obtain ⟨c, u, rfl, hc⟩ := exists_cons_of_map_fold hname
  refine (trimStart_append hw _).trans (trimStart_cons_of_not_blank ?_ _)
  refine isBlank_of_isFoldedNameChar ?_
  rw [isFoldedNameChar, hc]
  exact hletters _ hl

theorem dropWord?_trimStart_iff {l : Char} (hl : fold l ∈ ['m', 'w', 'i', 'b', 'p']) :
    dropWord? (l :: word) (trimStart t) = some rest ↔
      ∃ w spelled, Blank w ∧ spelled.map fold = (l :: word).map fold ∧ t = w ++ (spelled ++ rest) := by
  rw [dropWord?_eq_some_iff]
  constructor
  · rintro ⟨spelled, he, hname⟩
    obtain ⟨w, hw, ht⟩ := exists_blank_of_trimStart he
    exact ⟨w, spelled, hw, hname, ht⟩
  · rintro ⟨w, spelled, hw, hname, rfl⟩
    exact ⟨spelled, trimStart_spelled hl hw hname rest, hname⟩

theorem pixels?_eq_some_iff :
    pixels? t = some (number, rest) ↔ ∃ p, t = p ++ rest ∧ Pixels number p := by
  have hunit : fold 'p' ∈ ['m', 'w', 'i', 'b', 'p'] := by decide
  rw [pixels?_eq]
  constructor
  · intro h
    obtain ⟨⟨n, u⟩, hn, h⟩ := Option.bind_eq_some_iff.mp h
    obtain ⟨v, hpx, h⟩ := Option.bind_eq_some_iff.mp h
    obtain ⟨x, hclose, he⟩ := Option.map_eq_some_iff.mp h
    obtain ⟨rfl, rfl⟩ := Prod.mk.inj he
    obtain ⟨hnumber, hu⟩ := number_of_number? hn
    obtain ⟨w, hw, rfl⟩ := exists_blank_of_trimStart hu
    obtain ⟨unit, rfl, hunit⟩ := dropWord?_eq_some_iff.mp hpx
    obtain ⟨w', hw', rfl⟩ := (dropStart?_trimStart_iff (c := ')') (by decide)).mp hclose
    exact ⟨_, by simp, .spell hw hnumber hunit hw'⟩
  · rintro ⟨p, rfl, h⟩
    cases h with
    | @spell w unit w' hw hn hpx hw' =>
      obtain ⟨c, v, rfl, hc⟩ := exists_cons_of_map_fold hpx
      obtain ⟨hdigit, hdot⟩ := isDigit_of_letter (hc ▸ hunit)
      have hassoc : w ++ (number ++ (c :: v ++ (w' ++ [')']))) ++ rest =
          w ++ (number ++ c :: (v ++ (w' ++ ')' :: rest))) := by simp
      rw [hassoc, trimStart_append hw, hn.trimStart_append, hn.number?_append hdigit hdot, Option.bind_some,
        ← List.cons_append, dropWord?_eq_some_iff.mpr ⟨c :: v, rfl, hpx⟩, Option.bind_some]
      have hclose : dropStart? (w' ++ ')' :: rest).trimStart ")" = some rest :=
        (dropStart?_trimStart_iff (c := ')') (by decide)).mpr ⟨w', hw', rfl⟩
      rw [hclose]
      rfl

theorem reads_bound {l : Char} (hl : fold l ∈ ['m', 'w', 'i', 'b', 'p']) (relation : Text) :
    (bound (l :: word) relation).Reads (Bound (l :: word) relation) where
  forward _ _ := rfl
  ne_nil := by
    rintro f out ⟨⟩
    exact List.cons_ne_nil _ _
  eq_some_iff := by
    intro t out rest
    rw [bound_eq]
    constructor
    · intro h
      obtain ⟨u, hopen, h⟩ := Option.bind_eq_some_iff.mp h
      obtain ⟨v, hname, h⟩ := Option.bind_eq_some_iff.mp h
      obtain ⟨x, hcolon, h⟩ := Option.bind_eq_some_iff.mp h
      obtain ⟨⟨number, y⟩, hpixels, he⟩ := Option.map_eq_some_iff.mp h
      obtain ⟨rfl, rfl⟩ := Prod.mk.inj he
      obtain rfl : t = '(' :: u := dropStart?_eq_some.mp hopen
      obtain ⟨w, spelled, hw, hspelled, rfl⟩ := (dropWord?_trimStart_iff hl).mp hname
      obtain ⟨w', hw', rfl⟩ := (dropStart?_trimStart_iff (c := ':') (by decide)).mp hcolon
      obtain ⟨p, rfl, hp⟩ := pixels?_eq_some_iff.mp hpixels
      exact ⟨_, by simp, .spell hw hspelled hw' hp⟩
    · rintro ⟨f, rfl, h⟩
      cases h with
      | @spell w spelled w' number p hw hspelled hw' hp =>
        have hname : dropWord? (l :: word) (w ++ (spelled ++ (w' ++ ':' :: (p ++ rest)))).trimStart =
            some (w' ++ ':' :: (p ++ rest)) :=
          (dropWord?_trimStart_iff hl).mpr ⟨w, spelled, hw, hspelled, rfl⟩
        have hcolon : dropStart? (w' ++ ':' :: (p ++ rest)).trimStart ":" = some (p ++ rest) :=
          (dropStart?_trimStart_iff (c := ':') (by decide)).mpr ⟨w', hw', rfl⟩
        have hpixels : pixels? (p ++ rest) = some (number, rest) :=
          pixels?_eq_some_iff.mpr ⟨p, rfl, hp⟩
        have hopen : '(' :: (w ++ (spelled ++ (w' ++ ':' :: p))) ++ rest =
            "(" ++ (w ++ (spelled ++ (w' ++ ':' :: (p ++ rest)))) := by simp
        rw [hopen, dropStart?_append, Option.bind_some, hname, Option.bind_some, hcolon,
          Option.bind_some, hpixels]
        rfl

theorem dropAnyWord?_sizes_eq_some_iff :
    dropAnyWord? sizes t = some (size, rest) ↔ size ∈ sizes ∧ dropWord? size t = some rest :=
  dropAnyWord?_eq_some_iff (by decide)

theorem of_relation? (h : relation? t = some (relation, rest)) :
    relation ∈ relations ∧ t = relation ++ rest := by
  rw [relation?_eq] at h
  obtain ⟨r, hr, h⟩ := List.exists_of_findSome?_eq_some h
  obtain ⟨u, hu, he⟩ := Option.map_eq_some_iff.mp h
  obtain ⟨rfl, rfl⟩ := Prod.mk.inj he
  exact ⟨hr, dropStart?_eq_some.mp hu⟩

theorem relation?_append (h : relation ∈ relations) (hrest : rest.head? ≠ some '=') :
    relation? (relation ++ rest) = some (relation, rest) := by
  simp only [relations, List.mem_cons, List.not_mem_nil, or_false] at h
  rcases h with rfl | rfl | rfl | rfl
  · rfl
  · rfl
  -- Only a relation of one character may be the beginning of another one.
  all_goals
    cases rest with
    | nil => rfl
    | cons c t =>
      have hc : '=' ≠ c := fun he => hrest (congrArg some he.symm)
      simp [relation?_eq, dropStart?, hc]

theorem Pixels.head?_append_ne (h : Pixels number p) (rest : Text) :
    (p ++ rest).head? ≠ some '=' := by
  cases h with
  | @spell w unit w' hw hn =>
    cases w with
    | nil =>
      obtain ⟨d, u, rfl, hd⟩ := hn.exists_cons
      intro he
      obtain rfl : d = '=' := Option.some.inj he
      exact absurd hd (by decide)
    | cons b w =>
      intro he
      obtain rfl : b = '=' := Option.some.inj he
      exact absurd (hw '=' List.mem_cons_self) (by decide)

theorem trimStart_relation_append (h : relation ∈ relations) (t : Text) :
    trimStart (relation ++ t) = relation ++ t := by
  have hall : ∀ r ∈ relations, ∃ c u, r = c :: u ∧ isBlank c = false := by
    simp only [relations, List.forall_mem_cons]
    exact ⟨⟨'>', ['='], rfl, by decide⟩, ⟨'<', ['='], rfl, by decide⟩, ⟨'>', [], rfl, by decide⟩,
      ⟨'<', [], rfl, by decide⟩, by simp⟩
  obtain ⟨c, u, rfl, hc⟩ := hall relation h
  exact trimStart_cons_of_not_blank hc _

theorem exists_letter_of_mem_sizes (h : size ∈ sizes) :
    ∃ l word, size = l :: word ∧ fold l ∈ ['m', 'w', 'i', 'b', 'p'] := by
  have hall : ∀ s ∈ sizes, (s.head?.any fun l => fold l ∈ ['m', 'w', 'i', 'b', 'p']) = true := by
    decide
  obtain ⟨l, hl, hfold⟩ := (Option.any_eq_true _ _).mp (hall size h)
  obtain ⟨word, rfl⟩ := List.head?_eq_some_iff.mp hl
  exact ⟨l, word, rfl, of_decide_eq_true hfold⟩

theorem reads_range : range.Reads Range where
  forward _ _ := rfl
  ne_nil := by
    rintro f out ⟨⟩
    exact List.cons_ne_nil _ _
  eq_some_iff := by
    intro t out rest
    rw [range_eq]
    constructor
    · intro h
      obtain ⟨u, hopen, h⟩ := Option.bind_eq_some_iff.mp h
      obtain ⟨⟨size, v⟩, hname, h⟩ := Option.bind_eq_some_iff.mp h
      obtain ⟨⟨relation, x⟩, hrelation, h⟩ := Option.bind_eq_some_iff.mp h
      obtain ⟨⟨number, y⟩, hpixels, he⟩ := Option.map_eq_some_iff.mp h
      obtain ⟨rfl, rfl⟩ := Prod.mk.inj he
      obtain rfl : t = '(' :: u := dropStart?_eq_some.mp hopen
      obtain ⟨hsize, hname⟩ := dropAnyWord?_sizes_eq_some_iff.mp hname
      obtain ⟨spelled, hu, hspelled⟩ := dropWord?_eq_some_iff.mp hname
      obtain ⟨w, hw, rfl⟩ := exists_blank_of_trimStart hu
      obtain ⟨hmem, hv⟩ := of_relation? hrelation
      obtain ⟨w', hw', rfl⟩ := exists_blank_of_trimStart hv
      obtain ⟨p, rfl, hp⟩ := pixels?_eq_some_iff.mp hpixels
      refine ⟨'(' :: (w ++ (spelled ++ (w' ++ (relation ++ p)))), by simp, ?_⟩
      dsimp only
      rw [hu, List.length_append, Nat.add_sub_cancel, List.take_left]
      exact .spell hsize hmem hw hspelled hw' hp
    · rintro ⟨f, rfl, h⟩
      cases h with
      | @spell size relation w spelled w' number p hsize hmem hw hspelled hw' hp =>
        obtain ⟨l, word, rfl, hl⟩ := exists_letter_of_mem_sizes hsize
        have hname : dropWord? (l :: word) (w ++ (spelled ++ (w' ++ (relation ++ (p ++ rest))))).trimStart =
            some (w' ++ (relation ++ (p ++ rest))) :=
          (dropWord?_trimStart_iff hl).mpr ⟨w, spelled, hw, hspelled, rfl⟩
        have hu := trimStart_spelled hl hw hspelled (w' ++ (relation ++ (p ++ rest)))
        have hrelation : relation? (w' ++ (relation ++ (p ++ rest))).trimStart =
            some (relation, p ++ rest) := by
          rw [trimStart_append hw', trimStart_relation_append hmem]
          exact relation?_append hmem (hp.head?_append_ne rest)
        have hpixels : pixels? (p ++ rest) = some (number, rest) :=
          pixels?_eq_some_iff.mpr ⟨p, rfl, hp⟩
        have hopen : '(' :: (w ++ (spelled ++ (w' ++ (relation ++ p)))) ++ rest =
            "(" ++ (w ++ (spelled ++ (w' ++ (relation ++ (p ++ rest))))) := by simp
        rw [hopen, dropStart?_append, Option.bind_some,
          dropAnyWord?_sizes_eq_some_iff.mpr ⟨hsize, hname⟩, Option.bind_some, hrelation,
          Option.bind_some, hpixels, hu, List.length_append, Nat.add_sub_cancel, List.take_left]
        rfl

theorem writable_of_mem_relations (h : relation ∈ relations) : Writable relation := by
  have hall : ∀ r ∈ relations, Writable r := by
    simp only [relations, List.forall_mem_cons]
    decide
  exact hall relation h

theorem isFoldedNameChar_of_spelled (hword : ∀ l ∈ word, isFoldedNameChar l = true)
    (h : spelled.map fold = word.map fold) : ∀ c ∈ spelled, isFoldedNameChar c = true := by
  intro c hc
  have hfold := List.mem_map_of_mem (f := fold) hc
  rw [h] at hfold
  obtain ⟨l, hl, he⟩ := List.mem_map.mp hfold
  rw [isFoldedNameChar, ← he]
  exact hword l hl

theorem Number.writable (h : Number number) : Writable number := by
  have hdigits : ∀ {t : Text}, Digits t → Writable t := by
    intro t ht c hc
    refine ⟨isInner_of_digit (ht.digit c hc), ?_⟩
    cases hb : isBlank c with
    | true => exact absurd (isDigit_of_blank hb) (by simp [ht.digit c hc])
    | false => rfl
  have hpoint : Writable ['.'] := by decide
  cases h with
  | whole ht => exact hdigits ht
  | fraction ht hu => exact (hdigits ht).append (hpoint.append (hdigits hu))

theorem paren_notMem (h : ∀ c ∈ t, isInner c = true) : '(' ∉ t ∧ ')' ∉ t :=
  ⟨fun hc => absurd (h _ hc) (by decide), fun hc => absurd (h _ hc) (by decide)⟩

namespace Feature

theorem exists_inner (h : Feature f out) :
    ∃ inner, f = '(' :: (inner ++ [')']) ∧ ∀ c ∈ inner, isInner c = true := by
  suffices hr : Recognised (f ++ []) out [] by
    rw [List.append_nil] at hr
    exact hr.exists_inner
  have hread : ∀ {r : Recogniser Text} {P : Grammar}, r.Reads P → P f out →
      r none (f ++ []) = some (out, []) := fun hr hf => (hr.eq_some_iff _ _ _).mpr ⟨f, rfl, hf⟩
  rcases h with (h | h) | h
  · exact recognised_bound (by decide) (by decide) (hread (reads_bound (by decide) _) h)
  · exact recognised_bound (by decide) (by decide) (hread (reads_bound (by decide) _) h)
  · exact recognised_range (hread reads_range h)

theorem exists_head (h : Feature f out) : ∃ c t, f = '(' :: c :: t ∧ isDigit c = false := by
  have hhead : ∀ {l : Char} {w word spelled : Text} (t : Text), Blank w →
      spelled.map fold = (l :: word).map fold → fold l ∈ ['m', 'w', 'i', 'b', 'p'] →
      ∃ c u, w ++ (spelled ++ t) = c :: u ∧ isDigit c = false := by
    intro l w word spelled t hw hspelled hl
    cases w with
    | nil =>
      obtain ⟨c, u, rfl, hc⟩ := exists_cons_of_map_fold hspelled
      exact ⟨c, u ++ t, rfl, (isDigit_of_letter (hc ▸ hl)).1⟩
    | cons c w => exact ⟨c, _, rfl, isDigit_of_blank (hw c List.mem_cons_self)⟩
  rcases h with (⟨hw, hname, -, -⟩ | ⟨hw, hname, -, -⟩) | ⟨hsize, -, hw, hname, -, -⟩
  · obtain ⟨c, u, he, hc⟩ := hhead _ hw hname (by decide)
    exact ⟨c, u, congrArg _ he, hc⟩
  · obtain ⟨c, u, he, hc⟩ := hhead _ hw hname (by decide)
    exact ⟨c, u, congrArg _ he, hc⟩
  · obtain ⟨l, word, rfl, hl⟩ := exists_letter_of_mem_sizes hsize
    obtain ⟨c, u, he, hc⟩ := hhead _ hw hname hl
    exact ⟨c, u, congrArg _ he, hc⟩

theorem exists_comparison (h : Feature f out) :
    ∃ size relation number, out = comparison size relation number ∧ Writable (size ++ relation) ∧
      Number number := by
  have hnumber : ∀ {number p}, Pixels number p → Number number := fun ⟨_, hn, _, _⟩ => hn
  have hnames : ∀ s ∈ sizes, ∀ l ∈ s, isFoldedNameChar l = true := by decide
  rcases h with (⟨-, -, -, hp⟩ | ⟨-, -, -, hp⟩) | ⟨hsize, hrelation, -, hname, -, hp⟩
  · exact ⟨"width", ">=", _, rfl, by decide, hnumber hp⟩
  · exact ⟨"width", "<=", _, rfl, by decide, hnumber hp⟩
  · exact ⟨_, _, _, rfl, (writable_lower (isFoldedNameChar_of_spelled (hnames _ hsize) hname)).append
      (writable_of_mem_relations hrelation), hnumber hp⟩

theorem bracketed : Grammar.Bracketed Feature where
  source f out h := by
    obtain ⟨inner, rfl, hinner⟩ := h.exists_inner
    refine ⟨inner ++ [')'], rfl, ?_⟩
    simpa using (paren_notMem hinner).1
  target f out h := by
    obtain ⟨size, relation, number, rfl, -, -⟩ := h.exists_comparison
    rfl

end Feature

theorem comparison_eq_append (hwritable : Writable (size ++ relation)) (hnumber : Number number)
    (h : comparison size relation number = w ++ '(' :: t) :
    t = size ++ (' ' :: (relation ++ (" to-rem" ++ '(' :: (number ++ "px))")))) ∨
      t = number ++ "px))" := by
  have hfirst : '(' ∉ size ++ (' ' :: (relation ++ " to-rem")) := by
    have hparen := (paren_notMem fun c hc => (hwritable c hc).1).1
    rw [List.mem_append, not_or] at hparen
    simpa [hparen.1] using hparen.2
  have hlast : '(' ∉ number ++ "px))" := by
    have hparen := (paren_notMem fun c hc => (hnumber.writable c hc).1).1
    simpa using hparen
  have hsplit : comparison size relation number =
      '(' :: (size ++ (' ' :: (relation ++ " to-rem")) ++ '(' :: (number ++ "px))")) := by
    simp [comparison]
  rw [hsplit] at h
  rcases w with _ | ⟨c, w⟩
  · left
    rw [← (List.cons.inj h).2]
    simp
  · right
    obtain ⟨-, h⟩ := List.cons.inj h
    rcases List.append_eq_append_iff.mp h with ⟨v, rfl, hv⟩ | ⟨v, hv, he⟩
    · rcases v with _ | ⟨d, v⟩
      · exact (List.cons.inj hv).2.symm
      · rw [(List.cons.inj hv).2] at hlast
        exact absurd (by simp) hlast
    · rcases v with _ | ⟨d, v⟩
      · exact (List.cons.inj he).2
      · rw [hv, ← (List.cons.inj he).1] at hfirst
        exact absurd (by simp) hfirst

theorem append_ne_append (ht : '(' ∉ t) (hu : ')' ∉ u) (v rest : Text) :
    t ++ ')' :: rest ≠ u ++ '(' :: v := by
  induction t generalizing u with
  | nil =>
    rcases u with _ | ⟨d, u⟩
    · simp
    · rintro h
      exact hu ((List.cons.inj h).1 ▸ List.mem_cons_self)
  | cons c t ih =>
    rw [List.mem_cons, not_or] at ht
    rcases u with _ | ⟨d, u⟩
    · rintro h
      exact ht.1 (List.cons.inj h).1.symm
    · rw [List.mem_cons, not_or] at hu
      rintro h
      exact ih ht.2 hu.2 (List.cons.inj h).2

theorem Feature.leftAlone : Grammar.LeftAloneBy Feature Feature := by
  rintro f out hf x y hxy hy rest ⟨g, out', rest', hg, he⟩
  obtain ⟨size, relation, number, rfl, hwritable, hnumber⟩ := hf.exists_comparison
  obtain ⟨inner, hinner, hinside⟩ := hg.exists_inner
  obtain ⟨c, u, hhead, hc⟩ := hg.exists_head
  obtain ⟨d, y, rfl⟩ := List.exists_cons_of_ne_nil hy
  obtain rfl : d = '(' := by
    rw [hinner] at he
    exact (List.cons.inj he).1
  rcases comparison_eq_append hwritable hnumber hxy with rfl | rfl
  · -- The first parenthesis is opened again before it is closed.
    have hparen : ')' ∉ size ++ (' ' :: (relation ++ " to-rem")) := by
      have hparen := (paren_notMem fun c hc => (hwritable c hc).1).2
      rw [List.mem_append, not_or] at hparen
      simpa [hparen.1] using hparen.2
    rw [hinner] at he
    refine append_ne_append (paren_notMem hinside).1 hparen (number ++ "px))" ++ rest) rest' ?_
    simpa using (List.cons.inj he).2.symm
  · -- The second one stands in front of a digit.
    obtain ⟨e, v, rfl, hdigit⟩ := hnumber.exists_cons
    rw [hhead] at he
    obtain rfl := (List.cons.inj (List.cons.inj he).2).1
    rw [hc] at hdigit
    exact Bool.false_ne_true hdigit

end Restyle.Condition
