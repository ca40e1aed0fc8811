import Restyle.Declaration.Color
import Restyle.Proofs.Text.Letter
import Restyle.Proofs.Text.Rewriting

/-! # Uses of colour tokens

A use of a token that ends in `-hsl` is a text of a grammar, bare or inside
`hsl( )`, and this grammar is what is read. The alpha value in `hsl( )` has no
closing parenthesis.
-/

namespace Restyle.Declaration

open Text

variable {t w f rest name word : Text} {c : Char}

/-- A use of a token that ends in `-hsl`, and the name of the plain token. -/
inductive TokenUse : Text → Text → Prop
  | intro {word blanks name ending blanks' : Text} (hword : word.map fold = "var")
      (hblank : Blank blanks) (hne : name ≠ [])
      (hname : ∀ c ∈ name ++ ending, isFoldedNameChar c = true) (hending : ending.map fold = "-hsl")
      (hblank' : Blank blanks') :
      TokenUse (word ++ '(' :: (blanks ++ "--" ++ (name ++ ending) ++ blanks') ++ [')']) (lower name)

/-- Such uses are written as uses of the plain token. -/
inductive BareUse : Grammar
  | intro {f name : Text} (hf : TokenUse f name) : BareUse f (useOf name)

/-- Such a use inside `hsl( )`, alone or in front of an alpha value. -/
inductive FunctionUse : Grammar
  | plain {word blanks f name blanks' : Text} (hword : word.map fold = "hsl")
      (hblank : Blank blanks) (hf : TokenUse f name) (hblank' : Blank blanks') :
      FunctionUse (word ++ '(' :: (blanks ++ f ++ blanks') ++ [')']) (useOf name)
  | mixed {word blanks f name blanks' alpha : Text} (hword : word.map fold = "hsl")
      (hblank : Blank blanks) (hf : TokenUse f name) (hblank' : Blank blanks') (hne : alpha ≠ [])
      (hclosed : ')' ∉ alpha) :
      FunctionUse (word ++ '(' :: (blanks ++ f ++ blanks' ++ '/' :: alpha) ++ [')'])
        ("color-mix(in oklab, " ++ useOf name ++ " " ++ alphaPercentage alpha ++ ", transparent)")

theorem dropWord?_open_iff : dropWord? (word ++ "(") t = some rest ↔
    ∃ w, w.map fold = word.map fold ∧ t = w ++ '(' :: rest := by
  rw [dropWord?_eq_some_iff]
  constructor
  · rintro ⟨opened, rfl, hopened⟩
    rw [List.map_append] at hopened
    obtain ⟨w, v, rfl, hw, hv⟩ := List.map_eq_append_iff.mp hopened
    obtain ⟨c, rfl, hc⟩ := List.map_eq_singleton_iff.mp hv
    obtain rfl : c = '(' := eq_of_fold_eq (by decide) (hc.trans (by decide))
    exact ⟨w, hw, by simp⟩
  · rintro ⟨w, hw, rfl⟩
    exact ⟨w ++ ['('], by simp, by rw [List.map_append, List.map_append, hw]; rfl⟩

theorem span_name (hname : ∀ c ∈ name, isFoldedNameChar c = true) (hw : Blank w)
    (hc : isFoldedNameChar c = false) (t : Text) :
    (name ++ (w ++ c :: t)).takeWhile isFoldedNameChar = name ∧
      (name ++ (w ++ c :: t)).dropWhile isFoldedNameChar = w ++ c :: t := by
  rw [List.takeWhile_append_of_pos hname, List.dropWhile_append_of_pos hname]
  rcases w with _ | ⟨d, w⟩
  · simp [hc]
  · simp [isFoldedNameChar_of_blank (hw d List.mem_cons_self)]

theorem usedName?_eq_some_iff : usedName? t = some (name, rest) ↔
    ∃ word blanks blanks' : Text, word.map fold = "var" ∧ Blank blanks ∧ Blank blanks' ∧
      (∀ c ∈ name, isFoldedNameChar c = true) ∧
      t = word ++ '(' :: (blanks ++ "--" ++ name ++ blanks') ++ ')' :: rest := by
  have hopen : ("var(" : Text) = ("var" : Text) ++ "(" := rfl
  have hdash : isBlank '-' = false := by decide
  have hparen : isBlank ')' = false := by decide
  rw [usedName?, hopen]
  constructor
  · intro h
    obtain ⟨t₁, hword, h⟩ := Option.bind_eq_some_iff.mp h
    obtain ⟨t₂, hdashes, h⟩ := Option.bind_eq_some_iff.mp h
    obtain ⟨t₃, hclose, h⟩ := Option.bind_eq_some_iff.mp h
    obtain ⟨rfl, rfl⟩ := Prod.mk.inj (Option.some.inj h)
    obtain ⟨word, hfold, rfl⟩ := dropWord?_open_iff.mp hword
    obtain ⟨blanks, hblank, rfl⟩ := (dropStart?_trimStart_iff (u := ['-']) hdash).mp hdashes
    obtain ⟨blanks', hblank', hrest⟩ := (dropStart?_trimStart_iff (u := []) hparen).mp hclose
    refine ⟨word, blanks, blanks', hfold, hblank, hblank', fun c hc => List.mem_takeWhile_imp hc, ?_⟩
    have ht₂ := List.takeWhile_append_dropWhile (p := isFoldedNameChar) (l := t₂)
    rw [hrest] at ht₂
    nth_rewrite 1 [← ht₂]
    simp
  · rintro ⟨word, blanks, blanks', hfold, hblank, hblank', hname, rfl⟩
    obtain ⟨htake, hdrop⟩ := span_name hname hblank' (c := ')') (by decide) rest
    have hword : dropWord? ("var" ++ "(") (word ++ '(' :: (blanks ++ "--" ++ name ++ blanks') ++
        ')' :: rest) = some (blanks ++ "--" ++ (name ++ (blanks' ++ ')' :: rest))) :=
      dropWord?_open_iff.mpr ⟨word, hfold, by simp⟩
    have hdashes : dropStart? (trimStart (blanks ++ "--" ++ (name ++ (blanks' ++ ')' :: rest)))) "--" =
        some (name ++ (blanks' ++ ')' :: rest)) :=
      (dropStart?_trimStart_iff (u := ['-']) hdash).mpr ⟨blanks, hblank, by simp⟩
    have hclose : dropStart? (trimStart (blanks' ++ ')' :: rest)) ")" = some rest :=
      (dropStart?_trimStart_iff (u := []) hparen).mpr ⟨blanks', hblank', rfl⟩
    simp only [hword, hdashes, htake, hdrop, hclose, Option.bind_eq_bind, Option.bind_some,
      Option.pure_def]

theorem hslVariable?_eq_some_iff : hslVariable? t = some (name, rest) ↔
    ∃ f, t = f ++ rest ∧ TokenUse f name := by
  rw [hslVariable?]
  constructor
  · intro h
    obtain ⟨⟨used, u⟩, hused, hplain⟩ := Option.bind_eq_some_iff.mp h
    obtain ⟨plain, hend, hfound⟩ := Option.bind_eq_some_iff.mp hplain
    clear h hplain
    split_ifs at hfound with hne
    obtain ⟨rfl, rfl⟩ := Prod.mk.inj (Option.some.inj hfound)
    obtain ⟨word, blanks, blanks', hfold, hblank, hblank', hname, rfl⟩ := usedName?_eq_some_iff.mp hused
    obtain ⟨ending, rfl, hending⟩ := dropWordEnd?_eq_some_iff.mp hend
    refine ⟨_, ?_, .intro hfold hblank (by simpa using hne) hname (hending.trans (by decide)) hblank'⟩
    simp
  · rintro ⟨f, rfl, hf⟩
    cases hf with
    | @intro word blanks name ending blanks' hword hblank hne hname hending hblank' =>
      have hused : usedName? (word ++ '(' :: (blanks ++ "--" ++ (name ++ ending) ++ blanks') ++ [')'] ++
          rest) = some (name ++ ending, rest) :=
        usedName?_eq_some_iff.mpr ⟨word, blanks, blanks', hword, hblank, hblank', hname, by simp⟩
      have hend : dropWordEnd? "-hsl" (name ++ ending) = some name :=
        dropWordEnd?_eq_some_iff.mpr ⟨ending, rfl, hending.trans (by decide)⟩
      have hempty : name.isEmpty = false := by simpa using hne
      simp only [hused, hend, hempty, Option.bind_eq_bind, Option.bind_some, Option.pure_def]
      rfl

theorem reads_bareHsl : bareHsl.Reads BareUse where
  forward _ _ := rfl
  ne_nil := by
    rintro _ _ ⟨⟨⟩⟩
    simp
  eq_some_iff t out rest := by
    rw [bareHsl, Option.map_eq_some_iff]
    constructor
    · rintro ⟨⟨name, u⟩, hfound, he⟩
      obtain ⟨rfl, rfl⟩ := Prod.mk.inj he
      obtain ⟨f, rfl, hf⟩ := hslVariable?_eq_some_iff.mp hfound
      exact ⟨f, rfl, .intro hf⟩
    · rintro ⟨f, rfl, ⟨hf⟩⟩
      exact ⟨_, hslVariable?_eq_some_iff.mpr ⟨f, rfl, hf⟩, rfl⟩

theorem TokenUse.trimStart_append (h : TokenUse f name) (t : Text) : trimStart (f ++ t) = f ++ t := by
  cases h with
  | @intro word blanks name ending blanks' hword =>
    obtain _ | ⟨c, word⟩ := word
    · simp at hword
    · have hc : fold c = 'v' := (List.cons.inj hword).1
      refine trimStart_cons_of_not_blank ?_ _
      by_contra hblank
      have hname := isFoldedNameChar_of_blank (c := c) (by simpa using hblank)
      rw [isFoldedNameChar, hc] at hname
      exact absurd hname (by decide)

theorem opened_iff :
    (∃ u, dropWord? "hsl(" t = some u ∧ hslVariable? (trimStart u) = some (name, rest)) ↔
    ∃ word blanks f : Text, word.map fold = "hsl" ∧ Blank blanks ∧ TokenUse f name ∧
      t = word ++ '(' :: (blanks ++ (f ++ rest)) := by
  have hopen : ("hsl(" : Text) = ("hsl" : Text) ++ "(" := rfl
  rw [hopen]
  constructor
  · rintro ⟨u, hdrop, hname⟩
    obtain ⟨word, hword, rfl⟩ := dropWord?_open_iff.mp hdrop
    obtain ⟨f, hrest, hf⟩ := hslVariable?_eq_some_iff.mp hname
    obtain ⟨blanks, hblank, hu⟩ := exists_eq_trimStart u
    exact ⟨word, blanks, f, hword, hblank, hf, by rw [hu, hrest]⟩
  · rintro ⟨word, blanks, f, hword, hblank, hf, rfl⟩
    refine ⟨_, dropWord?_open_iff.mpr ⟨word, hword, rfl⟩, ?_⟩
    rw [trimStart_append hblank, hf.trimStart_append]
    exact hslVariable?_eq_some_iff.mpr ⟨f, rfl, hf⟩

theorem alpha_iff {alpha : Text} : (t.takeWhile (· ≠ ')') = alpha ∧
    dropStart? (t.dropWhile (· ≠ ')')) ")" = some rest) ↔ ')' ∉ alpha ∧ t = alpha ++ ')' :: rest := by
  constructor
  · rintro ⟨rfl, hclose⟩
    refine ⟨fun hmem => absurd (List.mem_takeWhile_imp hmem) (by simp), ?_⟩
    have hsplit := List.takeWhile_append_dropWhile (p := (· ≠ ')')) (l := t)
    rw [dropStart?_eq_some.mp hclose] at hsplit
    exact hsplit.symm
  · rintro ⟨hclosed, rfl⟩
    have hall : ∀ c ∈ alpha, (decide (c ≠ ')')) = true := fun c hc =>
      decide_eq_true fun he => hclosed (he ▸ hc)
    rw [List.takeWhile_append_of_pos hall, List.dropWhile_append_of_pos hall]
    exact ⟨by simp, by simpa using dropStart?_append ")" rest⟩

theorem reads_hslFunction : hslFunction.Reads FunctionUse where
  forward _ _ := rfl
  ne_nil := by
    rintro _ _ (_ | _) <;> simp
  eq_some_iff t out rest := by
    rw [hslFunction]
    constructor
    · intro h
      obtain ⟨t₁, hdrop, hplain⟩ := Option.bind_eq_some_iff.mp h
      obtain ⟨⟨name, t₂⟩, hname, hfound⟩ := Option.bind_eq_some_iff.mp hplain
      clear h hplain
      obtain ⟨word, blanks, f, hword, hblank, hf, rfl⟩ := opened_iff.mp ⟨t₁, hdrop, hname⟩
      obtain ⟨blanks', hblank', ht₂⟩ := exists_eq_trimStart t₂
      dsimp only at hfound
      split at hfound
      · rename_i u hu
        obtain ⟨rfl, rfl⟩ := Prod.mk.inj (Option.some.inj hfound)
        refine ⟨_, ?_, .plain hword hblank hf hblank'⟩
        rw [ht₂, hu]
        simp
      · rename_i u hu
        obtain ⟨u', hclose, hout⟩ := Option.bind_eq_some_iff.mp hfound
        split_ifs at hout with hne
        obtain ⟨rfl, rfl⟩ := Prod.mk.inj (Option.some.inj hout)
        obtain ⟨hclosed, hsplit⟩ := alpha_iff.mp ⟨rfl, hclose⟩
        refine ⟨_, ?_, .mixed hword hblank hf hblank' (by simpa using hne) hclosed⟩
        rw [ht₂, hu]
        nth_rewrite 1 [hsplit]
        simp
      · exact absurd hfound (Option.some_ne_none _).symm
    · rintro ⟨f, rfl, hf⟩
      cases hf with
      | @plain word blanks f name blanks' hword hblank hf hblank' =>
        obtain ⟨u, hdrop, hname⟩ := opened_iff.mpr ⟨word, blanks, f, hword, hblank, hf,
          show word ++ '(' :: (blanks ++ f ++ blanks') ++ [')'] ++ rest =
            word ++ '(' :: (blanks ++ (f ++ (blanks' ++ ')' :: rest))) by simp⟩
        have hgap : trimStart (blanks' ++ ')' :: rest) = ')' :: rest := by
          rw [trimStart_append hblank', trimStart_cons_of_not_blank (by decide)]
        simp only [hdrop, hname, hgap, Option.bind_eq_bind, Option.bind_some, Option.pure_def]
      | @mixed word blanks f name blanks' alpha hword hblank hf hblank' hne hclosed =>
        obtain ⟨u, hdrop, hname⟩ := opened_iff.mpr ⟨word, blanks, f, hword, hblank, hf,
          show word ++ '(' :: (blanks ++ f ++ blanks' ++ '/' :: alpha) ++ [')'] ++ rest =
            word ++ '(' :: (blanks ++ (f ++ (blanks' ++ '/' :: (alpha ++ ')' :: rest)))) by simp⟩
        have hgap : trimStart (blanks' ++ '/' :: (alpha ++ ')' :: rest)) = '/' :: (alpha ++ ')' :: rest) := by
          rw [trimStart_append hblank', trimStart_cons_of_not_blank (by decide)]
        obtain ⟨htake, hclose⟩ := alpha_iff.mpr ⟨hclosed, (rfl : alpha ++ ')' :: rest = _)⟩
        have hempty : ¬ alpha.isEmpty = true := by simpa using hne
        simp only [hdrop, hname, hgap, htake, hclose, if_neg hempty, Option.bind_eq_bind,
          Option.bind_some, Option.pure_def]

end Restyle.Declaration
