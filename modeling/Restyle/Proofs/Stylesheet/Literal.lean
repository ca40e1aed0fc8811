import Mathlib.Data.List.Forall2
import Restyle.Proofs.Stylesheet.Respacing

/-! # String literals and urls

The literals of a stylesheet are its quoted texts and what `url` has between its
parentheses, white space at the ends of either apart. Where lines are broken and
set in, a literal stays as it is exactly if no line ends in it and no space in it
follows a semicolon.
-/

namespace Restyle

open Text Lexeme

namespace Text

/-- A text in which no line ends and no space follows a semicolon. -/
def Unbroken (t : Text) : Prop :=
  '\n' ∉ t ∧ t.contains "; " = false

instance (t : Text) : Decidable (Unbroken t) :=
  inferInstanceAs (Decidable (_ ∧ _))

def KeptUnbroken (t u : Text) : Prop :=
  u = t ↔ Unbroken t

variable {b c : Char} {t u x y : Text} {ts us : List Text}

theorem eq_iff_of_keptUnbroken (h : List.Forall₂ KeptUnbroken ts us) :
    us = ts ↔ ∀ t ∈ ts, Unbroken t := by
  induction h with
  | nil => simp
  | @cons t u ts us ht _ ih =>
    have hkept : u = t ↔ Unbroken t := ht
    rw [List.cons.injEq, List.forall_mem_cons, hkept, ih]

theorem Wraps.keptUnbroken (h : Wraps b t u) (hb : b ≠ ';') : KeptUnbroken t u :=
  h.eq_iff.trans (keepsBlanks_iff hb)

theorem Wraps.getLast?_eq (h : Wraps b t u) : u.getLast? = t.getLast? := by
  induction h with
  | nil => rfl
  | @cons b c w w' t u _ _ _ _ _ _ ih =>
    rw [List.getLast?_append, List.getLast?_cons, ih, List.getLast?_append, List.getLast?_cons]
    rfl

theorem Wraps.trimEnd_cons (hc : isBlank c = false) (h : Wraps c t u) :
    trimEnd (c :: t) = c :: t ∧ trimEnd (c :: u) = c :: u := by
  have hcons : Wraps ' ' (c :: t) (c :: u) := .visible hc h
  have hlast := hcons.last_visible
  exact ⟨trimEnd_eq_self hlast, trimEnd_eq_self (hcons.getLast?_eq ▸ hlast)⟩

theorem Wraps.keptUnbroken_cons (hc : isBlank c = false) (h : Wraps c t u) :
    KeptUnbroken (c :: t) (c :: u) := by
  have hcons : Wraps ' ' (c :: t) (c :: u) := .visible hc h
  exact hcons.keptUnbroken (by decide)

theorem Wraps.keptUnbroken_trim (h : Wraps b t u) : KeptUnbroken (trim t) (trim u) := by
  cases h with
  | nil => exact (Wraps.nil ' ').keptUnbroken (by decide)
  | cons hw hw' _ _ hc h =>
    obtain ⟨ht, hu⟩ := Wraps.trimEnd_cons hc h
    rw [trim_blank_append hw, trim_blank_append hw', trim, trim, trimStart_cons_of_not_blank hc,
      trimStart_cons_of_not_blank hc, ht, hu]
    exact Wraps.keptUnbroken_cons hc h

end Text

namespace Lexeme

/-- The text of a quoted lexeme, without white space at its end, where nothing may close it. -/
def quotedText? : Lexeme → Option Text
  | .quoted t _ => some (trimEnd t)
  | _ => none

def enclosed (ls : List Lexeme) : Text :=
  trim (textOf (ls.takeWhile (· != .plain ')')))

def isNamePart (c : Char) : Bool :=
  isNameChar c || (128 ≤ c.toNat && !isBlank c)

/-- What the name `url` has in parentheses; the name that is being read is given. -/
def urlsBehind : Text → List Lexeme → List Text
  | _, [] => []
  | name, .plain c :: ls =>
    if c = '(' ∧ lower name = "url" then enclosed ls :: urlsBehind [] ls
    else urlsBehind (if isNamePart c then name ++ [c] else []) ls
  | _, .quoted _ _ :: ls => urlsBehind [] ls
  | _, .comment _ _ :: ls => urlsBehind [] ls

variable {b c : Char} {t u w w' name : Text} {l m : Lexeme} {ls ms xs ys : List Lexeme}

theorem isNamePart_of_blank (hc : isBlank c = true) : isNamePart c = false := by
  simp [isNamePart, isNameChar_of_blank hc, hc]

theorem ne_plain_of_blank (hw : Blank w) (hc : isBlank c = false) : ∀ l ∈ w.map plain, l ≠ plain c := by
  rintro l hl rfl
  obtain ⟨d, hd, he⟩ := List.mem_map.mp hl
  rw [plain.injEq] at he
  exact Bool.false_ne_true (hc.symm.trans (he ▸ hw d hd))

theorem filterMap_quotedText?_plain (t : Text) : (t.map plain).filterMap quotedText? = [] := by
  simp [quotedText?]

theorem urlsBehind_blank_append (hw : Blank w) (name : Text) (ls : List Lexeme) :
    urlsBehind name (w.map plain ++ ls) = urlsBehind (if w = [] then name else []) ls := by
  induction w generalizing name with
  | nil => rfl
  | cons c w ih =>
    obtain ⟨hc, hw⟩ := blank_cons.mp hw
    have hparen : ¬ (c = '(' ∧ lower name = "url") := by
      rintro ⟨rfl, -⟩
      exact absurd hc (by decide)
    rw [List.map_cons, List.cons_append, urlsBehind, if_neg hparen, isNamePart_of_blank hc, ih hw,
      if_neg (List.cons_ne_nil c w)]
    exact congrArg (urlsBehind · ls) (ite_self _)

section Append

theorem enclosed_append (hxs : plain ')' ∉ xs) (ls : List Lexeme) :
    enclosed (ls ++ xs) =
      if plain ')' ∈ ls then enclosed ls else trim (textOf ls ++ textOf xs) := by
  have hall : ∀ {ls : List Lexeme}, plain ')' ∉ ls → ∀ l ∈ ls, (l != plain ')') = true := by
    intro ls hls l hl
    exact bne_iff_ne.mpr fun he => hls (he ▸ hl)
  split_ifs with hls
  · obtain ⟨as, bs, rfl, has⟩ := List.eq_append_cons_of_mem hls
    rw [enclosed, enclosed, List.append_assoc, List.takeWhile_append_of_pos (hall has),
      List.takeWhile_append_of_pos (hall has)]
    rfl
  · rw [enclosed, List.takeWhile_append_of_pos (hall hls), List.takeWhile_eq_self_iff.mpr (hall hxs),
      textOf_append]

theorem urlsBehind_append_congr (henclosed : ∀ ls, enclosed (ls ++ ys) = enclosed (ls ++ xs))
    (h : ∀ name, urlsBehind name ys = urlsBehind name xs) (name : Text) (ls : List Lexeme) :
    urlsBehind name (ls ++ ys) = urlsBehind name (ls ++ xs) := by
  induction ls generalizing name with
  | nil => exact h name
  | cons l ls ih =>
    cases l <;> simp only [List.cons_append, urlsBehind, henclosed, ih]

theorem urlsBehind_append_blank (hw : Blank w) (name : Text) (ls : List Lexeme) :
    urlsBehind name (ls ++ w.map plain) = urlsBehind name ls := by
  have hparen : plain ')' ∉ w.map plain := fun h => ne_plain_of_blank hw (by decide) _ h rfl
  have henclosed : ∀ ls, enclosed (ls ++ w.map plain) = enclosed (ls ++ []) := by
    intro ls
    rw [enclosed_append hparen, enclosed_append List.not_mem_nil, textOf_plain, textOf_nil,
      List.append_nil, trim_append_blank _ hw]
  have hnone : ∀ name, urlsBehind name (w.map plain) = urlsBehind name [] := by
    intro name
    have hrun := urlsBehind_blank_append hw name []
    rwa [List.append_nil] at hrun
  have hcongr := urlsBehind_append_congr henclosed hnone name ls
  rwa [List.append_nil] at hcongr

theorem urlsBehind_append_extend (hl : l.closed = false) (hw : Blank w) (name : Text)
    (ls : List Lexeme) : urlsBehind name (ls ++ [l.extend w]) = urlsBehind name (ls ++ [l]) := by
  have hplain : ∀ m : Lexeme, m.closed = false → plain ')' ∉ [m] := by
    intro m hm hmem
    rw [← List.mem_singleton.mp hmem] at hm
    exact Bool.false_ne_true hm.symm
  have htext : (l.extend w).text = l.text ++ w ∧ (l.extend w).closed = false := by
    cases l with
    | plain c => exact absurd hl.symm Bool.false_ne_true
    | quoted t closed => exact ⟨rfl, hl⟩
    | comment t closed => exact ⟨rfl, hl⟩
  refine urlsBehind_append_congr (fun ls => ?_) (fun name => ?_) name ls
  · rw [enclosed_append (hplain _ htext.2), enclosed_append (hplain _ hl), textOf_cons, textOf_cons,
      htext.1, textOf_nil, List.append_nil, List.append_nil, ← List.append_assoc,
      trim_append_blank _ hw]
  · cases l with
    | plain c => exact absurd hl.symm Bool.false_ne_true
    | quoted t closed => rfl
    | comment t closed => rfl

end Append

section Respacing

theorem Becomes.exists_text (h : Becomes l m) :
    ∃ c t u, l.text = c :: t ∧ m.text = c :: u ∧ isBlank c = false ∧ Wraps c t u := by
  cases h with
  | @plain c hc => exact ⟨c, [], [], rfl, rfl, hc, .nil c⟩
  | quoted closed hc h => exact ⟨_, _, _, rfl, rfl, hc, h⟩
  | comment closed hc h => exact ⟨_, _, _, rfl, rfl, hc, h⟩

theorem Becomes.eq_plain_iff (h : Becomes l m) : m = .plain c ↔ l = .plain c := by
  cases h <;> simp

theorem Respaced.exists_enclosed (h : Respaced b ls ms) :
    ∃ t w u w', textOf (ls.takeWhile (· != plain ')')) = t ++ w ∧
      textOf (ms.takeWhile (· != plain ')')) = u ++ w' ∧ Blank w ∧ Blank w' ∧ Wraps b t u := by
  have hrun : ∀ {w : Text}, Blank w → ∀ ls : List Lexeme,
      textOf ((w.map plain ++ ls).takeWhile (· != plain ')')) =
        w ++ textOf (ls.takeWhile (· != plain ')')) := by
    intro w hw ls
    have hall : ∀ l ∈ w.map plain, (l != plain ')') = true :=
      fun l hl => bne_iff_ne.mpr (ne_plain_of_blank hw (by decide) l hl)
    rw [List.takeWhile_append_of_pos hall, textOf_append, textOf_plain]
  induction h with
  | nil b => exact ⟨[], [], [], [], rfl, rfl, .nil, .nil, .nil b⟩
  | @cons b w w' l m ls ms hw hw' hnil hkept hl _ ih =>
    rw [hrun hw, hrun hw']
    by_cases hparen : l = plain ')'
    · have hparen' : m = plain ')' := hl.eq_plain_iff.mpr hparen
      rw [List.takeWhile_cons_of_neg (by simp [hparen]), List.takeWhile_cons_of_neg (by simp [hparen'])]
      exact ⟨[], w, [], w', by simp, by simp, hw, hw', .nil b⟩
    · have hparen' : m ≠ plain ')' := mt hl.eq_plain_iff.mp hparen
      obtain ⟨c, t, u, ht, hu, hc, htu⟩ := hl.exists_text
      obtain ⟨x, v, y, v', hx, hy, hv, hv', hxy⟩ := ih
      rw [ht, List.getLastD_cons] at hxy
      rw [List.takeWhile_cons_of_pos (by simp [hparen]), List.takeWhile_cons_of_pos (by simp [hparen']),
        textOf_cons, textOf_cons, hx, hy, ht, hu]
      refine ⟨w ++ c :: (t ++ x), v, w' ++ c :: (u ++ y), v', by simp, by simp, hv, hv', ?_⟩
      exact .cons hw hw' hnil hkept hc (htu.append hxy)

theorem Respaced.keptUnbroken_enclosed (h : Respaced b ls ms) :
    KeptUnbroken (enclosed ls) (enclosed ms) := by
  obtain ⟨t, w, u, w', ht, hu, hw, hw', htu⟩ := h.exists_enclosed
  rw [enclosed, enclosed, ht, hu, trim_append_blank _ hw, trim_append_blank _ hw']
  exact htu.keptUnbroken_trim

theorem Respaced.quotedTexts (h : Respaced b ls ms) :
    List.Forall₂ KeptUnbroken (ls.filterMap quotedText?) (ms.filterMap quotedText?) := by
  induction h with
  | nil => exact .nil
  | cons _ _ _ _ hl _ ih =>
    rw [List.filterMap_append, List.filterMap_append, filterMap_quotedText?_plain,
      filterMap_quotedText?_plain, List.nil_append, List.nil_append]
    cases hl with
    | plain hc => exact ih
    | comment closed hc ht => exact ih
    | quoted closed hc ht =>
      obtain ⟨hend, hend'⟩ := Wraps.trimEnd_cons hc ht
      rw [List.filterMap_cons, List.filterMap_cons, quotedText?, quotedText?, hend, hend']
      exact .cons (ht.keptUnbroken_cons hc) ih

theorem Respaced.urlsBehind (h : Respaced b ls ms) (name : Text) :
    List.Forall₂ KeptUnbroken (urlsBehind name ls) (urlsBehind name ms) := by
  induction h generalizing name with
  | nil => exact .nil
  | @cons b w w' l m ls ms hw hw' hnil _ hl hrest ih =>
    rw [urlsBehind_blank_append hw, urlsBehind_blank_append hw']
    simp only [hnil]
    generalize (if w = [] then name else []) = name
    cases hl with
    | quoted closed hc ht => exact ih []
    | comment closed hc ht => exact ih []
    | plain hc =>
      rw [Lexeme.urlsBehind, Lexeme.urlsBehind]
      split
      · exact .cons hrest.keptUnbroken_enclosed (ih [])
      · exact ih _

end Respacing

end Lexeme

/-- The string literals and urls of a stylesheet. -/
def literals (css : Text) : List Text :=
  (scan css).filterMap quotedText? ++ urlsBehind [] (scan css)

section Literals

variable {b : Char} {t u w : Text}

/-- Literals are kept exactly if they are unbroken. -/
theorem literals_eq_iff_of_wraps (h : Wraps b t u) :
    literals u = literals t ↔ ∀ x ∈ literals t, Unbroken x := by
  have hscan := respaced_scan h
  exact eq_iff_of_keptUnbroken (List.rel_append hscan.quotedTexts (hscan.urlsBehind []))

theorem literals_blank_append (hw : Blank w) (t : Text) : literals (w ++ t) = literals t := by
  rw [literals, scan_blank_append hw, List.filterMap_append, filterMap_quotedText?_plain,
    urlsBehind_blank_append hw, ite_self]
  rfl

theorem literals_append_blank (t : Text) (hw : Blank w) : literals (t ++ w) = literals t := by
  rcases scan_append_blank_cases t hw with h | ⟨ls, l, hopen, hls, h⟩
  · rw [literals, h, urlsBehind_append_blank hw, List.filterMap_append,
      filterMap_quotedText?_plain, List.append_nil, literals]
  · have hquoted : (l.extend w).quotedText? = l.quotedText? := by
      cases l with
      | plain c => rfl
      | quoted t closed => exact congrArg some (trimEnd_append t hw)
      | comment t closed => rfl
    rw [literals, h, urlsBehind_append_extend hopen hw, literals, hls, List.filterMap_append,
      List.filterMap_append, List.filterMap_cons, hquoted, ← List.filterMap_cons]

end Literals

end Restyle
