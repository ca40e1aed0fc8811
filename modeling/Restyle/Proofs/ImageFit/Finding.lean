import Restyle.Conversion.ImageFit
import Restyle.Proofs.Declaration.Longhand
import Restyle.Proofs.Stylesheet.Cascade
import Restyle.Proofs.Text.LookBehind

/-! # Finding the fit of an image

A fit declaration is found where a word may start: one of two property names in
any case, white space, a colon, and a value up to the next semicolon. So what is
found in front of a semicolon does not depend on what follows it.
-/

namespace Restyle.ImageFit

open Text Declaration

def fitNames : List Text :=
  ["object-fit", "aspect-ratio"]

/-- The parts of a fit declaration: its name in any case, white space and its value. -/
structure Parts (name blanks value : Text) : Prop where
  spelled : name.map fold ∈ fitNames
  blank : Blank blanks
  ne_nil : value ≠ []
  free : ∀ c ∈ value, c ∉ [';', '{', '}']

variable {b b' : Option Char} {c : Char} {t u v w rest name blanks value : Text} {d : Declaration}

theorem Parts.append_blank (h : Parts name blanks value) (hw : Blank w) :
    Parts name blanks (value ++ w) := by
  refine ⟨h.spelled, h.blank, List.append_ne_nil_of_left_ne_nil h.ne_nil w, fun c hc => ?_⟩
  rcases List.mem_append.mp hc with hc | hc
  · exact h.free c hc
  · exact fun hend => hw.notMem hc (by decide) hend

theorem Parts.no_semicolon (h : Parts name blanks value) :
    ∀ c ∈ name ++ blanks ++ ':' :: value, (c == ';') = false := by
  have hnames : ∀ n ∈ fitNames, ';' ∉ n := by decide
  intro c hc
  refine beq_false_of_ne ?_
  rintro rfl
  simp only [List.mem_append, List.mem_cons] at hc
  rcases hc with (hc | hc) | hc | hc
  · have hfold : fold ';' = ';' := by decide
    exact hnames _ h.spelled (hfold ▸ List.mem_map_of_mem hc)
  · exact h.blank.ne_of_mem hc (by decide : isBlank ';' = false) rfl
  · exact absurd hc (by decide)
  · exact h.free _ hc List.mem_cons_self

theorem property?_fitNames {n : Text} : property? fitNames t = some (n, rest) ↔
    ∃ name blanks, t = name ++ blanks ++ ':' :: rest ∧ name.map fold = n ∧ n ∈ fitNames ∧
      Blank blanks := by
  have hfold : ∀ n ∈ fitNames, n.map fold = n := by decide
  rw [property?_iff_mem (by decide)]
  constructor
  · rintro ⟨hn, name, blanks, ht, hname, hblanks⟩
    exact ⟨name, blanks, ht, hname.trans (hfold n hn), hn, hblanks⟩
  · rintro ⟨name, blanks, ht, hname, hn, hblanks⟩
    exact ⟨hn, name, blanks, ht, hname.trans (hfold n hn).symm, hblanks⟩

/-- What a fit declaration is found in. -/
theorem fitDeclaration_eq_some_iff : fitDeclaration b t = some (d, rest) ↔
    wordMayStart b = true ∧ ∃ name blanks value, Parts name blanks value ∧
      t = name ++ blanks ++ ':' :: (value ++ ';' :: rest) ∧ d = ⟨lower name, trim value⟩ := by
  have htake : ∀ {n name : Text} (u : Text), name.map fold = n → (name ++ u).take n.length = name := by
    rintro n name u rfl
    simp
  constructor
  · intro h
    rw [fitDeclaration] at h
    split_ifs at h with hstart
    · exact absurd h (by simp)
    · obtain ⟨⟨n, rest'⟩, hproperty, h⟩ := Option.bind_eq_some_iff.mp h
      obtain ⟨⟨value, rest''⟩, hvalue, h⟩ := Option.bind_eq_some_iff.mp h
      obtain ⟨rfl, rfl⟩ := Prod.mk.inj (Option.some.inj h)
      obtain ⟨name, blanks, rfl, hname, hn, hblanks⟩ := property?_fitNames.mp hproperty
      obtain ⟨rfl, hne, hfree⟩ := value?_eq_some_iff.mp hvalue
      refine ⟨by simpa using hstart, name, blanks, value, ⟨hname ▸ hn, hblanks, hne, hfree⟩, rfl, ?_⟩
      rw [List.append_assoc, htake _ hname]
  · rintro ⟨hstart, name, blanks, value, h, rfl, rfl⟩
    have hproperty : property? fitNames (name ++ blanks ++ ':' :: (value ++ ';' :: rest)) =
        some (name.map fold, value ++ ';' :: rest) :=
      property?_fitNames.mpr ⟨name, blanks, rfl, rfl, h.spelled, h.blank⟩
    have hvalue : value? (value ++ ';' :: rest) = some (value, rest) :=
      value?_eq_some_iff.mpr ⟨rfl, h.ne_nil, h.free⟩
    have hname : (name ++ blanks ++ ':' :: (value ++ ';' :: rest)).take (name.map fold).length = name := by
      rw [List.append_assoc, htake _ rfl]
    have hfit : ∀ u, fitDeclaration b u = if !wordMayStart b then none
        else (property? fitNames u).bind fun p => (value? p.2).bind fun v =>
          some (⟨lower (u.take p.1.length), trim v.1⟩, v.2) := fun _ => rfl
    rw [hfit, hstart, hproperty, Bool.not_true, if_neg Bool.false_ne_true, Option.bind_some, hvalue,
      Option.bind_some, hname]

theorem fitDeclaration_congr (h : wordMayStart b = wordMayStart b') (t : Text) :
    fitDeclaration b t = fitDeclaration b' t := by
  rw [fitDeclaration, h, fitDeclaration]

theorem fitDeclaration_append (b : Option Char) (t u : Text) :
    fitDeclaration b (t ++ ';' :: u) =
      (fitDeclaration b (t ++ ";")).map fun (d, rest) => (d, rest ++ u) := by
  have hcut : ∀ {x y p q : Text}, (∀ c ∈ x, (c == ';') = false) → x ++ ';' :: y = p ++ ';' :: q →
      ∃ z, p ++ [';'] = x ++ ';' :: z ∧ y = z ++ q := by
    intro x y p q hx he
    rcases List.append_eq_append_iff.mp he with ⟨z, rfl, hz⟩ | ⟨z, rfl, hz⟩
    · rcases z with _ | ⟨c, z⟩
      · exact ⟨[], by simp, (List.cons.inj hz).2⟩
      · obtain ⟨rfl, rfl⟩ := List.cons.inj hz
        exact ⟨z ++ [';'], by simp, by simp⟩
    · rcases z with _ | ⟨c, z⟩
      · exact ⟨[], by simp, (List.cons.inj hz).2.symm⟩
      · obtain ⟨rfl, -⟩ := List.cons.inj hz
        exact absurd (hx ';' (by simp)) (by decide)
  ext ⟨d, rest⟩
  rw [Option.map_eq_some_iff]
  constructor
  · intro h
    obtain ⟨hstart, name, blanks, value, hp, ht, rfl⟩ := fitDeclaration_eq_some_iff.mp h
    have ht' : (name ++ blanks ++ ':' :: value) ++ ';' :: rest = t ++ ';' :: u := by simp [ht]
    obtain ⟨z, hz, rfl⟩ := hcut hp.no_semicolon ht'
    refine ⟨(_, z), fitDeclaration_eq_some_iff.mpr ⟨hstart, name, blanks, value, hp, ?_, rfl⟩, rfl⟩
    simpa using hz
  · rintro ⟨⟨d', z⟩, h, he⟩
    obtain ⟨rfl, rfl⟩ := Prod.mk.inj he
    obtain ⟨hstart, name, blanks, value, hp, ht, rfl⟩ := fitDeclaration_eq_some_iff.mp h
    refine fitDeclaration_eq_some_iff.mpr ⟨hstart, name, blanks, value, hp, ?_, rfl⟩
    have hsplit : t ++ ';' :: u = t ++ ";" ++ u := by simp
    rw [hsplit, ht]
    simp

end Restyle.ImageFit
