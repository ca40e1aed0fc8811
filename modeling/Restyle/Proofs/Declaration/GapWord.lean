import Restyle.Proofs.Declaration.GapName

/-! # Gaps whose value is a bare word

The first pass over gaps takes such declarations out of a list or writes them in
lower case. A longer name with the same end is recognised too and stays.
-/

namespace Restyle.Declaration

open Text

def isBare (x : Text) : Bool :=
  x.all isFoldedNameChar && x.head?.any isFoldedLetter

def isBareWord (v : Text) : Bool :=
  match words v with
  | [x] => isBare x
  | _ => false

/-- What a gap with a bare word is written as, if the word is one that every property takes. -/
def tidy? (d : Declaration) : Option Declaration :=
  if wideKeywords.contains (lower d.value) then some ⟨d.name, lower d.value⟩ else none

def isBareGap (d : Declaration) : Bool :=
  !d.isOther && isBareWord d.value

/-- What the first pass leaves of a declaration. -/
def clean? (d : Declaration) : Option Declaration :=
  if isBareGap d then d.tidy? else some d

def bareValue? (t : Text) : Option (Text × Text) :=
  let value := (trimStart t).takeWhile isFoldedNameChar
  (dropStart? (trimStart ((trimStart t).dropWhile isFoldedNameChar)) ";").bind fun rest =>
    if value.head?.any isFoldedLetter then some (value, rest) else none

def writtenWord (b : Option Char) (t n x rest : Text) : Text :=
  if nameBefore b then t.take (t.length - rest.length)
  else if wideKeywords.contains (lower x) then n ++ ": " ++ lower x ++ ";" else []

variable {b : Option Char} {c : Char} {t u v w w' p x name blanks out rest : Text} {d : Declaration}
  {ds : List Declaration}

section Words

theorem isToken_of_isBare (h : isBare x = true) : IsToken x := by
  obtain ⟨hall, hletter⟩ := Bool.and_eq_true_iff.mp h
  refine ⟨?_, fun c hc => ?_⟩
  · rintro rfl
    exact absurd hletter (by decide)
  · by_contra hblank
    have hname := List.all_eq_true.mp hall c hc
    rw [isFoldedNameChar_of_blank (by simpa using hblank)] at hname
    exact Bool.false_ne_true hname

theorem isBareWord_iff : isBareWord v = true ↔
    ∃ w x w', Blank w ∧ Blank w' ∧ isBare x = true ∧ v = w ++ (x ++ w') := by
  constructor
  · intro h
    rw [isBareWord] at h
    split at h
    next x hx =>
      obtain ⟨w, w', hw, hw', rfl, -⟩ := words_eq_singleton_iff.mp hx
      exact ⟨w, x, w', hw, hw', h, List.append_assoc w x w'⟩
    next => exact absurd h Bool.false_ne_true
  · rintro ⟨w, x, w', hw, hw', hx, rfl⟩
    rw [isBareWord, words_blank_append hw, words_append_blank _ hw', (isToken_of_isBare hx).words_eq]
    exact hx

theorem isBareGap_iff : isBareGap d = true ↔ d.name ∈ gapNames ∧ isBareWord d.value = true := by
  rw [isBareGap, Bool.and_eq_true, Bool.not_eq_true', ← Bool.not_eq_true, isOther_iff, not_not]

theorem isBareWord_spaced (v : Text) : isBareWord (spaced v) = isBareWord v := by
  rw [isBareWord, words_spaced, isBareWord]

theorem spaced_bare (hw : Blank w) (hw' : Blank w') (hx : isBare x = true) :
    spaced (w ++ (x ++ w')) = x := by
  rw [spaced, words_blank_append hw, words_append_blank _ hw', (isToken_of_isBare hx).words_eq,
    join_singleton]

theorem semicolon_notMem (hv : isBareWord v = true) : ';' ∉ v := by
  obtain ⟨w, x, w', hw, hw', hx, rfl⟩ := isBareWord_iff.mp hv
  have hall := List.all_eq_true.mp (Bool.and_eq_true_iff.mp hx).1
  simp only [List.mem_append, not_or]
  refine ⟨fun hc => ?_, fun hc => absurd (hall _ hc) (by decide), fun hc => ?_⟩
  · exact hw.ne_of_mem hc (by decide : isBlank ';' = false) rfl
  · exact hw'.ne_of_mem hc (by decide : isBlank ';' = false) rfl

theorem bareValue?_eq_some_iff : bareValue? t = some (x, rest) ↔
    ∃ v, isBareWord v = true ∧ x = spaced v ∧ t = v ++ ';' :: rest := by
  constructor
  · intro h
    obtain ⟨rest', hrest, h⟩ := Option.bind_eq_some_iff.mp h
    split_ifs at h with hletter
    obtain ⟨rfl, rfl⟩ := Prod.mk.inj (Option.some.inj h)
    obtain ⟨w', hw', hdrop⟩ := (dropStart?_trimStart_iff (c := ';') (by decide)).mp hrest
    obtain ⟨w, hw, ht⟩ := exists_eq_trimStart t
    have hall : ((trimStart t).takeWhile isFoldedNameChar).all isFoldedNameChar = true :=
      List.all_eq_true.mpr fun c hc => List.mem_takeWhile_imp hc
    have hbare : isBare ((trimStart t).takeWhile isFoldedNameChar) = true := by
      rw [isBare, hall, hletter, Bool.and_self]
    refine ⟨w ++ ((trimStart t).takeWhile isFoldedNameChar ++ w'),
      isBareWord_iff.mpr ⟨w, _, w', hw, hw', hbare, rfl⟩, (spaced_bare hw hw' hbare).symm, ?_⟩
    rw [List.nil_append] at hdrop
    rw [List.append_assoc, List.append_assoc, ← hdrop, List.takeWhile_append_dropWhile]
    exact ht
  · rintro ⟨v, hv, rfl, rfl⟩
    obtain ⟨w, x, w', hw, hw', hx, rfl⟩ := isBareWord_iff.mp hv
    rw [spaced_bare hw hw' hx, List.append_assoc, List.append_assoc]
    obtain ⟨hall, hletter⟩ := Bool.and_eq_true_iff.mp hx
    have htoken := isToken_of_isBare hx
    obtain ⟨c, x, rfl⟩ := List.exists_cons_of_ne_nil htoken.ne_nil
    have htrim : trimStart (w ++ (c :: x ++ (w' ++ ';' :: rest))) = c :: x ++ (w' ++ ';' :: rest) := by
      rw [trimStart_append hw]
      exact trimStart_cons_of_not_blank (htoken.visible c List.mem_cons_self) _
    have hstop : ∃ l u, w' ++ ';' :: rest = l :: u ∧ isFoldedNameChar l = false := by
      rcases w' with _ | ⟨l, w'⟩
      · exact ⟨';', rest, rfl, by decide⟩
      · exact ⟨l, w' ++ ';' :: rest, rfl, isFoldedNameChar_of_blank (hw' l List.mem_cons_self)⟩
    obtain ⟨l, u, hl, hstop⟩ := hstop
    have hpos := List.all_eq_true.mp hall
    have htake : (c :: x ++ (w' ++ ';' :: rest)).takeWhile isFoldedNameChar = c :: x := by
      rw [hl, List.takeWhile_append_of_pos hpos, List.takeWhile_cons_of_neg (by simp [hstop]),
        List.append_nil]
    have hdrop : (c :: x ++ (w' ++ ';' :: rest)).dropWhile isFoldedNameChar = w' ++ ';' :: rest := by
      rw [hl, List.dropWhile_append_of_pos hpos, List.dropWhile_cons_of_neg (by simp [hstop])]
    have hend : dropStart? (trimStart (w' ++ ';' :: rest)) ";" = some rest :=
      (dropStart?_trimStart_iff (c := ';') (by decide)).mpr ⟨w', hw', rfl⟩
    rw [bareValue?, htrim, htake, hdrop, hend, Option.bind_some, if_pos hletter]

end Words

section Pass

theorem gapWord_eq (b : Option Char) (t : Text) : gapWord b t =
    if wordMayStart b = true then
      (property? gapNames t).bind fun p =>
        (bareValue? p.2).map fun found => (writtenWord b t p.1 found.1 found.2, found.2)
    else none := by
  have hopen : gapWord b t = if !wordMayStart b then none else
      (property? gapNames t).bind fun p =>
        (dropStart? (trimStart ((trimStart p.2).dropWhile isFoldedNameChar)) ";").bind fun rest =>
          let value := (trimStart p.2).takeWhile isFoldedNameChar
          if !(value.head?.any isFoldedLetter) then none
          else if nameBefore b then some (t.take (t.length - rest.length), rest)
          else some (if wideKeywords.contains (lower value) then p.1 ++ ": " ++ lower value ++ ";" else [],
            rest) := rfl
  rw [hopen]
  cases wordMayStart b with
  | false => rfl
  | true =>
    rw [Bool.not_true, if_neg Bool.false_ne_true, if_pos rfl]
    refine Option.bind_congr fun p _ => ?_
    rw [bareValue?, Option.map_bind]
    refine Option.bind_congr fun rest _ => ?_
    dsimp only [Function.comp]
    cases ((trimStart p.2).takeWhile isFoldedNameChar).head?.any isFoldedLetter with
    | false => rfl
    | true =>
      simp only [writtenWord]
      cases nameBefore b <;> rfl

theorem writtenWord_eq (b : Option Char) (name blanks v rest : Text) :
    writtenWord b (name ++ blanks ++ ':' :: (v ++ ';' :: rest)) (name.map fold) (spaced v) rest =
      if nameBefore b = true then name ++ blanks ++ ':' :: (v ++ [';'])
      else (tidy? ⟨name, spaced v⟩).elim [] Declaration.text := by
  unfold writtenWord
  split_ifs with hb hwide
  · have hsplit : name ++ blanks ++ ':' :: (v ++ ';' :: rest) =
        name ++ blanks ++ ':' :: (v ++ [';']) ++ rest := by simp
    rw [hsplit, List.length_append, Nat.add_sub_cancel, List.take_left]
  · rw [tidy?, if_pos hwide]
    rfl
  · rw [tidy?, if_neg hwide]
    rfl

theorem gapWord_eq_some_iff : gapWord b t = some (out, rest) ↔ wordMayStart b = true ∧
    ∃ name blanks v, name.map fold ∈ gapNames ∧ Blank blanks ∧ isBareWord v = true ∧
      t = name ++ blanks ++ ':' :: (v ++ ';' :: rest) ∧
      out = if nameBefore b = true then name ++ blanks ++ ':' :: (v ++ [';'])
        else (tidy? ⟨name, spaced v⟩).elim [] Declaration.text := by
  rw [gapWord_eq]
  constructor
  · intro h
    split_ifs at h with hstart
    obtain ⟨⟨n, u⟩, hproperty, h⟩ := Option.bind_eq_some_iff.mp h
    obtain ⟨⟨x, rest'⟩, hvalue, h⟩ := Option.map_eq_some_iff.mp h
    obtain ⟨rfl, rfl⟩ := Prod.mk.inj h
    obtain ⟨hn, name, blanks, rfl, rfl, hblanks⟩ := (property?_gapNames (List.Subset.refl _)).mp hproperty
    obtain ⟨v, hv, rfl, rfl⟩ := bareValue?_eq_some_iff.mp hvalue
    exact ⟨hstart, name, blanks, v, hn, hblanks, hv, rfl, writtenWord_eq b name blanks v rest'⟩
  · rintro ⟨hstart, name, blanks, v, hn, hblanks, hv, rfl, rfl⟩
    have hproperty : property? gapNames (name ++ blanks ++ ':' :: (v ++ ';' :: rest)) =
        some (name.map fold, v ++ ';' :: rest) :=
      (property?_gapNames (List.Subset.refl _)).mpr ⟨hn, name, blanks, rfl, rfl, hblanks⟩
    have hvalue : bareValue? (v ++ ';' :: rest) = some (spaced v, rest) :=
      bareValue?_eq_some_iff.mpr ⟨v, hv, rfl, rfl⟩
    rw [if_pos hstart, hproperty, Option.bind_some, hvalue, Option.map_some, writtenWord_eq]

theorem startsInNames_gapWord : StartsInNames gapWord := by
  intro b c t hc
  rw [gapWord_eq, property?_gapNames_cons (List.Subset.refl _) hc, Option.bind_none, ite_self]

/-- A gap with a bare word is taken out or written anew. -/
theorem Piece.substituteFrom_gapWord (hp : Piece p d) (hb : Apart b) (hbare : isBareGap d = true)
    (t : Text) : ∃ w, Blank w ∧
      substituteFrom gapWord 0 b (p ++ ';' :: t) =
        w ++ (d.tidy?.elim [] Declaration.text ++ substituteFrom gapWord 0 (some ';') t) := by
  obtain ⟨hname, hbare⟩ := isBareGap_iff.mp hbare
  obtain ⟨w, w', v, hw, hw', rfl, -, -, -, hvalue⟩ := hp.exists_parts
  rw [hvalue, isBareWord_spaced] at hbare
  have hfound : gapWord (lastOf b w) (d.property ++ w' ++ ':' :: (v ++ [';']) ++ t) =
      some (d.tidy?.elim [] Declaration.text, t) := by
    refine gapWord_eq_some_iff.mpr ⟨(hb.lastOf hw).word, d.property, w', v, hname, hw', hbare, by simp, ?_⟩
    rw [(hb.lastOf hw).name, if_neg Bool.false_ne_true, ← hvalue]
  have hsplit : w ++ (d.property ++ w' ++ ':' :: v) ++ ';' :: t =
      w ++ (d.property ++ w' ++ ':' :: (v ++ [';']) ++ t) := by simp
  refine ⟨w, hw, ?_⟩
  rw [hsplit, (startsInNames_gapWord.passes hw b _).substituteFrom, substituteFrom_append (by simp) hfound]
  have hlast : lastOf (lastOf b w) (d.property ++ w' ++ ':' :: (v ++ [';'])) = some ';' := by
    have hend : d.property ++ w' ++ ':' :: (v ++ [';']) = (d.property ++ w' ++ ':' :: v) ++ [';'] := by
      simp
    rw [hend, lastOf_concat_semicolon]
  rw [hlast]

theorem Piece.substituteFrom_gapWord_of_not (hp : Piece p d) (hd : Clear d)
    (hnot : ¬ isBareGap d = true) (t : Text) :
    substituteFrom gapWord 0 b (p ++ ';' :: t) = p ++ ';' :: substituteFrom gapWord 0 (some ';') t := by
  have hsplit : ∀ u, p ++ ';' :: u = p ++ [';'] ++ u := by simp
  rw [hsplit, substituteFrom_eq_of_kept, lastOf_concat_semicolon, List.append_assoc]
  · rfl
  intro x y out rest hxy hy h
  obtain ⟨hstart, name, blanks, v, hname, hblanks, hv, ht, hout⟩ := gapWord_eq_some_iff.mp h
  have hwhole : p ++ ';' :: t = x ++ (name ++ blanks ++ ':' :: (v ++ ';' :: rest)) := by
    rw [hsplit, hxy, List.append_assoc, ht]
  obtain ⟨hend, rfl⟩ := hp.endsIn hd hstart hname hblanks (semicolon_notMem hv)
    (length_le_of_concat hxy hy) hwhole
  -- As a whole name it would be a gap with a bare word; behind a hyphen it is written as it was.
  rcases hend.place with ⟨hx, hproperty⟩ | ⟨w, z, -, rfl, -⟩
  · refine absurd (isBareGap_iff.mpr ⟨?_, ?_⟩) hnot
    · rw [Declaration.name, hproperty]
      exact hname
    · rw [hend.value, isBareWord_spaced]
      exact hv
  · rw [nameBefore_hyphen, if_pos rfl] at hout
    refine ⟨?_, rfl⟩
    rw [hend.piece, List.append_assoc] at hxy
    rw [hout, ← List.append_cancel_left hxy]
    simp

theorem spells_tidy? (hname : d.name ∈ gapNames) :
    Spells (d.tidy?.elim [] Declaration.text) d.tidy?.toList := by
  unfold tidy?
  split_ifs with hwide
  · have htoken : ∀ n ∈ gapNames, IsToken n ∧ ∀ c ∈ n, c ∉ [':', ';', '{', '}'] := by decide
    have hkeyword : ∀ v ∈ wideKeywords, ¬ Blank v ∧ (∀ c ∈ v, c ∉ [';', '{', '}']) ∧ spaced v = v := by
      decide
    obtain ⟨hname, hfree⟩ := htoken _ hname
    obtain ⟨hvalue, hfree', hspaced⟩ := hkeyword _ (List.contains_iff_mem.mp hwide)
    have htext := Spells.text (d := ⟨d.name, lower d.value⟩) hname
      (fun hc => hfree ':' hc List.mem_cons_self) hvalue fun c hc =>
        (List.mem_append.mp hc).elim (fun hc hend => hfree c hc (List.mem_cons_of_mem _ hend)) (hfree' c)
    rw [hspaced] at htext
    exact htext
  · exact .blank .nil

/-- The first pass takes gaps with bare words out of a list and leaves all other declarations. -/
theorem Spells.substituteFrom_gapWord (h : Spells t ds) (hds : ∀ d ∈ ds, Clear d) (hb : Apart b) :
    Spells (substituteFrom gapWord 0 b t) (ds.filterMap clean?) := by
  induction h generalizing b with
  | blank hw =>
    rw [startsInNames_gapWord.substituteFrom_blank hw]
    exact .blank hw
  | skip hw _ ih =>
    rw [startsInNames_gapWord.substituteFrom_skip hw]
    exact .skip hw (ih hds apart_semicolon)
  | @cons p t d ds hp _ ih =>
    obtain ⟨hd, hds⟩ := List.forall_mem_cons.mp hds
    have hrest := ih hds apart_semicolon
    by_cases hbare : isBareGap d = true
    · obtain ⟨w, hw, hout⟩ := hp.substituteFrom_gapWord hb hbare t
      have hcons : (d :: ds).filterMap clean? = d.tidy?.toList ++ ds.filterMap clean? := by
        rw [List.filterMap_cons, clean?, if_pos hbare]
        cases d.tidy? <;> rfl
      rw [hout, hcons]
      exact ((spells_tidy? (isBareGap_iff.mp hbare).1).append hrest).blank_append hw
    · rw [hp.substituteFrom_gapWord_of_not hd hbare, List.filterMap_cons, clean?, if_neg hbare]
      exact .cons hp hrest

end Pass

section Kept

variable {e : Declaration} {n : Text}

theorem clean?_cases (h : clean? d = some e) : e = d ∨
    (d.name ∈ gapNames ∧ isBareWord d.value = true ∧ lower d.value ∈ wideKeywords ∧
      e = ⟨d.name, lower d.value⟩) := by
  unfold clean? at h
  split_ifs at h with hbare
  · unfold tidy? at h
    split_ifs at h with hwide
    obtain ⟨hname, hbare⟩ := isBareGap_iff.mp hbare
    exact Or.inr ⟨hname, hbare, List.contains_iff_mem.mp hwide, (Option.some.inj h).symm⟩
  · exact Or.inl (Option.some.inj h).symm

theorem name_of_clean? (h : clean? d = some e) : e.name = d.name := by
  rcases clean?_cases h with rfl | ⟨hname, -, -, rfl⟩
  · rfl
  · exact map_fold_of_mem_gapNames hname

theorem clear_of_letters (hproperty : ∀ c ∈ d.property, c = '-' ∨ isWordChar c = true)
    (hvalue : ¬ "gap:".toList <:+: (words d.value).flatten.map fold) : Clear d :=
  ⟨fun x c n h _ => hproperty c (h ▸ by simp), hvalue⟩

theorem Clear.clean? (hd : Clear d) (h : clean? d = some e) : Clear e := by
  rcases clean?_cases h with rfl | ⟨hname, -, hwide, rfl⟩
  · exact hd
  · have hnames : ∀ n ∈ gapNames, ∀ c ∈ n, c = '-' ∨ isWordChar c = true := by decide +kernel
    have hkeywords : ∀ v ∈ wideKeywords, ¬ "gap:".toList <:+: (words v).flatten.map fold := by
      decide +kernel
    exact clear_of_letters (hnames _ hname) (hkeywords _ hwide)

theorem isOther_of_clean? (h : clean? d = some e) : isOther e = isOther d := by
  rw [isOther, name_of_clean? h, isOther]

theorem filter_filterMap_clean? (ds : List Declaration) :
    (ds.filterMap clean?).filter isOther = ds.filter isOther := by
  induction ds with
  | nil => rfl
  | cons d ds ih =>
    by_cases hother : isOther d = true
    · have hclean : Declaration.clean? d = some d := if_neg (by simp [isBareGap, hother])
      rw [List.filterMap_cons, hclean, List.filter_cons, List.filter_cons, ih]
    · rw [List.filter_cons_of_neg hother, List.filterMap_cons]
      rcases hclean : Declaration.clean? d with _ | e
      · exact ih
      · exact (List.filter_cons_of_neg (isOther_of_clean? hclean ▸ hother)).trans ih

theorem gap?_filterMap_cons (d : Declaration) (ds : List Declaration) (n : Text) :
    gap? ((d :: ds).filterMap clean?) n = (gap? (ds.filterMap clean?) n).or
      ((clean? d).bind fun e => if setsGap n e = true then some e.value else none) := by
  rw [List.filterMap_cons]
  rcases Declaration.clean? d with _ | e
  · exact Option.or_none.symm
  · exact gap?_cons e _ n

theorem gap?_filterMap_clean? (h : ∀ v ∈ gap? ds n, isBareWord v = false) :
    gap? (ds.filterMap clean?) n = gap? ds n := by
  induction ds with
  | nil => rfl
  | cons d ds ih =>
    rw [gap?_cons] at h ⊢
    rw [gap?_filterMap_cons]
    rcases hgap : gap? ds n with _ | v
    · rw [hgap] at ih h
      rw [ih (by simp), Option.none_or, Option.none_or]
      by_cases hsets : setsGap n d = true
      · have hbare : isBareWord d.value = false := h d.value (by simp [hsets])
        have hclean : Declaration.clean? d = some d := if_neg (by simp [isBareGap, hbare])
        rw [hclean, Option.bind_some]
      · rw [if_neg hsets, Option.bind_eq_none_iff]
        intro e he
        have hsame : setsGap n e = setsGap n d := by rw [setsGap, name_of_clean? he, setsGap]
        exact if_neg (hsame ▸ hsets)
    · have hrest : gap? (ds.filterMap Declaration.clean?) n = some v := by
        rw [ih (fun u hu => h u (by simp [Option.mem_def.mp hu])), hgap]
      rw [hrest, Option.some_or, Option.some_or]

end Kept

end Restyle.Declaration
