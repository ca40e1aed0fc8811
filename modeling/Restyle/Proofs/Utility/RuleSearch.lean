import Restyle.Proofs.Stylesheet.Bracing
import Restyle.Proofs.Text.Letter
import Restyle.Utility.Basic

/-! # Searching for the rule of a class

The body of a rule for a class is looked for at every place behind a separator.
In a flat stylesheet this finds the first rule whose prelude ends with the class
as a selector, as far as the separators tell.
-/

namespace Restyle

open Text

namespace Utility

def IsNamed (name t : Text) : Prop :=
  ∃ w, Blank w ∧ t = '.' :: (name ++ w)

/-- A text begins a class as a selector behind one of its separators, and ends with it. -/
def NamedBehind (sep : Char → Bool) (name t : Text) : Prop :=
  ∃ x c s, t = x ++ c :: s ∧ sep c = true ∧ IsNamed name s

def EndsNamed (sep : Char → Bool) (name t : Text) : Prop :=
  IsNamed name t ∨ NamedBehind sep name t

def bodyBehind? (sep : Char → Bool) (name : Text) : Text → Option Text
  | [] => none
  | c :: t =>
    ((if sep c then bodyOf? name t else none).map (·.1)).or (bodyBehind? sep name t)

variable {sep : Char → Bool} {name t p b s more rest body : Text} {c : Char}

theorem isNamed_iff : IsNamed name t ↔ ∃ w ∈ dropStart? t ('.' :: name), Blank w := by
  constructor
  · rintro ⟨w, hw, rfl⟩
    exact ⟨w, dropStart?_append ('.' :: name) w, hw⟩
  · rintro ⟨w, hdrop, hw⟩
    exact ⟨w, hw, dropStart?_eq_some.mp hdrop⟩

instance (name t : Text) : Decidable (IsNamed name t) :=
  decidable_of_iff _ isNamed_iff.symm

theorem not_namedBehind_nil : ¬ NamedBehind sep name [] := by
  rintro ⟨x, c, s, he, -⟩
  simp at he

theorem namedBehind_cons : NamedBehind sep name (c :: t) ↔
    sep c = true ∧ IsNamed name t ∨ NamedBehind sep name t := by
  constructor
  · rintro ⟨_ | ⟨d, x⟩, e, s, he, hs, hnamed⟩
    · obtain ⟨rfl, rfl⟩ := List.cons.inj he
      exact Or.inl ⟨hs, hnamed⟩
    · obtain ⟨rfl, rfl⟩ := List.cons.inj he
      exact Or.inr ⟨x, e, s, rfl, hs, hnamed⟩
  · rintro (⟨hs, hnamed⟩ | ⟨x, e, s, rfl, hs, hnamed⟩)
    · exact ⟨[], c, t, rfl, hs, hnamed⟩
    · exact ⟨c :: x, e, s, rfl, hs, hnamed⟩

instance decidableNamedBehind (sep : Char → Bool) (name : Text) :
    (t : Text) → Decidable (NamedBehind sep name t)
  | [] => isFalse not_namedBehind_nil
  | _ :: t =>
    have := decidableNamedBehind sep name t
    decidable_of_iff _ namedBehind_cons.symm

instance (sep : Char → Bool) (name t : Text) : Decidable (EndsNamed sep name t) :=
  inferInstanceAs (Decidable (_ ∨ _))

theorem span_append_cons (hb : c ∉ b) (t : Text) :
    (b ++ c :: t).takeWhile (· ≠ c) = b ∧ (b ++ c :: t).dropWhile (· ≠ c) = c :: t := by
  have hall : ∀ d ∈ b, decide (d ≠ c) = true := fun d hd => decide_eq_true fun he => hb (he ▸ hd)
  rw [takeWhile_append_cons (by simp), dropWhile_append_cons (by simp),
    List.takeWhile_eq_self_iff.mpr hall, List.dropWhile_eq_nil_iff.mpr hall]
  exact ⟨rfl, rfl⟩

/-- A rule for a class is its selector, and what braces enclose up to the first closing one. -/
theorem bodyOf?_eq_some_iff : bodyOf? name t = some (body, rest) ↔
    ∃ s, IsNamed name s ∧ '}' ∉ body ∧ t = s ++ '{' :: (body ++ '}' :: rest) := by
  have hopen : isBlank '{' = false := by decide
  rw [bodyOf?]
  constructor
  · intro h
    obtain ⟨t₁, hname, h⟩ := Option.bind_eq_some_iff.mp h
    obtain ⟨t₂, hbrace, h⟩ := Option.bind_eq_some_iff.mp h
    obtain ⟨t₃, hclose, h⟩ := Option.bind_eq_some_iff.mp h
    obtain ⟨rfl, rfl⟩ := Prod.mk.inj (Option.some.inj h)
    obtain ⟨w, hw, rfl⟩ := (dropStart?_trimStart_iff (u := []) hopen).mp hbrace
    obtain rfl := dropStart?_eq_some.mp hname
    refine ⟨'.' :: (name ++ w), ⟨w, hw, rfl⟩, fun hmem => ?_, ?_⟩
    · exact absurd (List.mem_takeWhile_imp hmem) (by simp)
    · have hsplit := List.takeWhile_append_dropWhile (p := (· ≠ '}')) (l := t₂)
      rw [dropStart?_eq_some.mp hclose] at hsplit
      nth_rewrite 1 [← hsplit]
      simp
  · rintro ⟨s, ⟨w, hw, rfl⟩, hbody, rfl⟩
    obtain ⟨htake, hdrop⟩ := span_append_cons hbody rest
    have hname : dropStart? ('.' :: (name ++ w) ++ '{' :: (body ++ '}' :: rest)) ('.' :: name) =
        some (w ++ '{' :: (body ++ '}' :: rest)) := dropStart?_eq_some.mpr (by simp)
    have hbrace : dropStart? (trimStart (w ++ '{' :: (body ++ '}' :: rest))) "\x7b" =
        some (body ++ '}' :: rest) := (dropStart?_trimStart_iff (u := []) hopen).mpr ⟨w, hw, rfl⟩
    have hclose : dropStart? ('}' :: rest) "\x7d" = some rest := dropStart?_append "\x7d" rest
    simp only [hname, hbrace, htake, hdrop, hclose, Option.bind_eq_bind, Option.bind_some,
      Option.pure_def]

section Braces

variable (hname : ∀ c ∈ name, isNameChar c = true)

include hname in
theorem IsNamed.braceless (h : IsNamed name t) : Braceless t := by
  obtain ⟨w, hw, rfl⟩ := h
  have hnot : ∀ c, isNameChar c = false → isBlank c = false → c ≠ '.' → c ∉ '.' :: (name ++ w) := by
    intro c hn hb hdot hmem
    rcases List.mem_cons.mp hmem with rfl | hmem
    · exact hdot rfl
    · rcases List.mem_append.mp hmem with hmem | hmem
      · exact Bool.false_ne_true (hn.symm.trans (hname c hmem))
      · exact Bool.false_ne_true (hb.symm.trans (hw c hmem))
  exact ⟨hnot '{' (by decide) (by decide) (by decide), hnot '}' (by decide) (by decide) (by decide)⟩

include hname in
theorem bodyOf?_flat (hp : Braceless p) (hb : Braceless b) (more : Text) :
    (bodyOf? name (p ++ '{' :: (b ++ '}' :: more))).map (·.1) =
      if IsNamed name p then some b else none := by
  split_ifs with hnamed
  · rw [bodyOf?_eq_some_iff.mpr ⟨p, hnamed, hb.2, rfl⟩]
    rfl
  · rw [Option.map_eq_none_iff, Option.eq_none_iff_forall_ne_some]
    rintro ⟨body, rest⟩ hfound
    obtain ⟨s, hs, -, he⟩ := bodyOf?_eq_some_iff.mp hfound
    obtain ⟨rfl, -⟩ := append_cons_inj_of_first hp.1 (hs.braceless hname).1 he
    exact hnamed hs

include hname in
theorem bodyOf?_closed (hs : '{' ∉ s) (more : Text) : bodyOf? name (s ++ '}' :: more) = none := by
  rw [Option.eq_none_iff_forall_ne_some]
  rintro ⟨body, rest⟩ hfound
  obtain ⟨v, hv, -, he⟩ := bodyOf?_eq_some_iff.mp hfound
  obtain ⟨-, hclose⟩ := hv.braceless hname
  rcases List.append_eq_append_iff.mp he with ⟨a, rfl, ha⟩ | ⟨a, rfl, ha⟩
  · rcases a with _ | ⟨d, a⟩
    · simp at ha
    · obtain ⟨rfl, -⟩ := List.cons.inj ha
      exact hclose (by simp)
  · rcases a with _ | ⟨d, a⟩
    · simp at ha
    · obtain ⟨rfl, -⟩ := List.cons.inj ha
      exact hs (by simp)

theorem bodyOf?_of_notMem (hs : '{' ∉ s) : bodyOf? name s = none := by
  rw [Option.eq_none_iff_forall_ne_some]
  rintro ⟨body, rest⟩ hfound
  obtain ⟨v, -, -, rfl⟩ := bodyOf?_eq_some_iff.mp hfound
  exact hs (by simp)

include hname in
theorem bodyBehind?_closed (hs : '{' ∉ s) (more : Text) :
    bodyBehind? sep name (s ++ '}' :: more) = bodyBehind? sep name ('}' :: more) := by
  induction s with
  | nil => rfl
  | cons c s ih =>
    rw [List.mem_cons, not_or] at hs
    rw [List.cons_append, bodyBehind?, bodyOf?_closed hname hs.2, ite_self, ih hs.2]
    rfl

theorem bodyBehind?_of_notMem (hs : '{' ∉ s) : bodyBehind? sep name s = none := by
  induction s with
  | nil => rfl
  | cons c s ih =>
    rw [List.mem_cons, not_or] at hs
    rw [bodyBehind?, bodyOf?_of_notMem hs.2, ite_self, ih hs.2]
    rfl

include hname in
theorem bodyBehind?_flat (hp : Braceless p) (hb : Braceless b) (c : Char) (more : Text) :
    bodyBehind? sep name (c :: (p ++ '{' :: (b ++ '}' :: more))) =
      if NamedBehind sep name (c :: p) then some b
      else bodyBehind? sep name ('}' :: more) := by
  induction p generalizing c with
  | nil =>
    have hnil : ¬ IsNamed name [] := by
      rintro ⟨w, -, he⟩
      simp at he
    have hopen := bodyOf?_flat hname hp hb more
    rw [if_neg hnil, Option.map_eq_none_iff] at hopen
    have hskip : ¬ NamedBehind sep name [c] := by
      rw [namedBehind_cons]
      exact not_or.mpr ⟨fun h => hnil h.2, not_namedBehind_nil⟩
    rw [bodyBehind?, hopen, ite_self, if_neg hskip, List.nil_append, bodyBehind?,
      bodyOf?_closed hname hb.1, ite_self, bodyBehind?_closed hname hb.1]
    rfl
  | cons d p ih =>
    have hp' : Braceless p := ⟨fun h => hp.1 (by simp [h]), fun h => hp.2 (by simp [h])⟩
    have hflat := bodyOf?_flat hname hp hb more
    rw [List.cons_append] at hflat
    rw [bodyBehind?, List.cons_append, ih hp' d]
    by_cases hfound : sep c = true ∧ IsNamed name (d :: p)
    · rw [if_pos hfound.1, hflat, if_pos hfound.2, if_pos (namedBehind_cons.mpr (Or.inl hfound))]
      rfl
    · have hnone : (if sep c then bodyOf? name (d :: (p ++ '{' :: (b ++ '}' :: more))) else none).map
          (·.1) = none := by
        split_ifs with hc
        · rw [hflat, if_neg fun hnamed => hfound ⟨hc, hnamed⟩]
        · rfl
      have hiff : NamedBehind sep name (c :: d :: p) ↔ NamedBehind sep name (d :: p) := by
        rw [namedBehind_cons, or_iff_right hfound]
      rw [hnone, Option.none_or]
      exact if_congr hiff.symm rfl rfl

include hname in
/-- The first rule that ends with the class is found. -/
theorem bodyBehind?_flatSheet (hclose : sep '}' = true) (hc : sep c = true)
    (rules : List FlatRule) (hrest : Braceless rest) :
    bodyBehind? sep name (c :: flatSheet rules rest) =
      (rules.find? fun r => EndsNamed sep name r.prelude).map (·.body) := by
  induction rules generalizing c with
  | nil =>
    rw [flatSheet, bodyBehind?, bodyOf?_of_notMem hrest.1, ite_self, bodyBehind?_of_notMem hrest.1]
    rfl
  | cons r rules ih =>
    have hiff : NamedBehind sep name (c :: r.prelude) ↔ EndsNamed sep name r.prelude := by
      rw [namedBehind_cons, EndsNamed]
      simp [hc]
    rw [flatSheet, bodyBehind?_flat hname r.prelude_braceless r.body_braceless, ih hclose]
    by_cases hends : EndsNamed sep name r.prelude
    · rw [if_pos (hiff.mpr hends), List.find?_cons_of_pos (by simpa using hends)]
      rfl
    · rw [if_neg (mt hiff.mp hends), List.find?_cons_of_neg (by simpa using hends)]

end Braces

/-- The utility stylesheet is searched behind white space, commas and closing braces. -/
def isSeparator (c : Char) : Bool :=
  isBlank c || c == ',' || c == '}'

theorem find?_rule (name sheet : Text) :
    find? (rule name) sheet = bodyBehind? isSeparator name (' ' :: sheet) := by
  have hbehind : ∀ a t, findFrom? (rule name) (some a) t = bodyBehind? isSeparator name t := by
    intro a t
    induction t generalizing a with
    | nil => rfl
    | cons c t ih =>
      have hrule : rule name (some a) (c :: t) = if isSeparator c then bodyOf? name t else none := rfl
      rw [findFrom?, bodyBehind?, hrule, ← ih c]
      cases (if isSeparator c then bodyOf? name t else none) <;> rfl
  rcases sheet with _ | ⟨c, t⟩
  · rfl
  · -- Only in front of everything no separator is needed.
    have hrule : rule name none (c :: t) =
        (bodyOf? name (c :: t)).or (if isSeparator c then bodyOf? name t else none) := by
      simp only [rule, Option.isNone_none, if_true]
      cases bodyOf? name (c :: t) <;> rfl
    have hspace : isSeparator ' ' = true := by decide
    rw [find?, findFrom?, hrule, hbehind, bodyBehind?, if_pos hspace, bodyBehind?]
    cases bodyOf? name (c :: t) <;>
      cases (if isSeparator c then bodyOf? name t else none) <;> rfl

theorem find?_bodyOf? (name sheet : Text) :
    find? (fun _ t => bodyOf? name t) sheet = bodyBehind? (fun _ => true) name (' ' :: sheet) := by
  have hbehind : ∀ a c t, findFrom? (fun _ t => bodyOf? name t) a t =
      bodyBehind? (fun _ => true) name (c :: t) := by
    intro a c t
    induction t generalizing a c with
    | nil => rfl
    | cons d t ih =>
      rw [findFrom?, bodyBehind?, if_pos rfl, ← ih (some d) d]
      cases bodyOf? name (d :: t) <;> rfl
  exact hbehind none ' ' sheet

end Utility

end Restyle
