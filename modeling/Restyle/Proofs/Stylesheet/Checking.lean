import Restyle.Proofs.Stylesheet.Lexeme
import Restyle.Proofs.Stylesheet.Reading
import Restyle.Stylesheet.Check

/-! # What the check counts

The check of a stylesheet counts braces and quotes wherever they stand. Apart
from the quotes around a quoted text, which come in pairs, it counts what stands
outside of quoted texts and comments together with what stands inside. So it
agrees with the scanner on a well-formed text exactly if the inside of its quoted
texts and comments passes the check, and on an ill-formed one if the inside does
not make up for what is wrong outside.
-/

namespace Restyle

namespace Lexeme

/-- The plain characters of lexemes. -/
def bare (ls : List Lexeme) : Text :=
  ls.flatMap fun
    | plain c => [c]
    | _ => []

/-- What stands in a quoted text between its quotes, or in a comment. Where nothing closes a quoted
text its quote delimits nothing. -/
def inside : Lexeme → Text
  | plain _ => []
  | quoted t true => t.tail.dropLast
  | quoted t false => t
  | comment t _ => t

def insideAll (ls : List Lexeme) : Text :=
  ls.flatMap inside

def isOpenQuoted : Lexeme → Bool
  | quoted _ closed => !closed
  | _ => false

/-- Outside of quoted texts and comments every brace that opens is closed, and none closes without
an open one; every quoted text is closed. -/
structure WellFormed (css : Text) : Prop where
  braces : bracesBehind? 0 (bare (scan css)) = some 0
  quotes : ∀ l ∈ scan css, l.isOpenQuoted = false

instance (css : Text) : Decidable (WellFormed css) :=
  decidable_of_iff (bracesBehind? 0 (bare (scan css)) = some 0 ∧
      ∀ l ∈ scan css, l.isOpenQuoted = false)
    ⟨fun h => ⟨h.1, h.2⟩, fun h => ⟨h.braces, h.quotes⟩⟩

variable {l : Lexeme} {ls : List Lexeme} {css t : Text} {c q : Char}

theorem exists_of_scanQuoted (hq : q ≠ '\\') {seen v : Text} (t : Text)
    (h : scanQuoted q seen t = quoted v true :: ls) : ∃ body, v = seen.reverse ++ body ++ [q] := by
  induction t using shielded_induction generalizing seen with
  | nil =>
    rw [scanQuoted] at h
    simp at h
  | shield c t ih =>
    rw [scanQuoted_shield] at h
    obtain ⟨body, rfl⟩ := ih h
    exact ⟨'\\' :: c :: body, by simp⟩
  | char c t hc ih =>
    by_cases hcq : c = q
    · subst hcq
      rw [scanQuoted_end hq, List.cons.injEq, quoted.injEq] at h
      exact ⟨[], by simp [← h.1.1]⟩
    · rw [scanQuoted_char hcq hc] at h
      obtain ⟨body, rfl⟩ := ih h
      exact ⟨c :: body, by simp⟩

theorem Sound.exists_body (h : (quoted t true).Sound) :
    ∃ q body, (q = '"' ∨ q = '\'') ∧ t = q :: (body ++ [q]) := by
  obtain ⟨q, u, rfl⟩ := List.exists_cons_of_ne_nil h.text_ne_nil
  have hq := h.isQuote
  have hne : q ≠ '\\' := by rcases hq with rfl | rfl <;> decide
  rw [Sound, text, scan_quote hq] at h
  obtain ⟨body, hbody⟩ := exists_of_scanQuoted hne u h
  exact ⟨q, body, hq, hbody⟩

theorem Sound.count_brace (h : l.Sound) (hc : c ∉ ['"', '\'']) :
    l.text.count c = (bare [l]).count c + l.inside.count c := by
  cases l with
  | plain d => simp [text, bare, inside]
  | comment t closed => simp [text, bare, inside]
  | quoted t closed =>
    cases closed with
    | false => simp [text, bare, inside]
    | true =>
      obtain ⟨q, body, hq, rfl⟩ := h.exists_body
      have hne : q ≠ c := by
        rintro rfl
        exact hc (by simpa using hq)
      simp [text, bare, inside, hne]

theorem Sound.count_quote (h : l.Sound) (hc : c ∈ ['"', '\'']) :
    l.text.count c % 2 = l.inside.count c % 2 := by
  cases l with
  | plain d =>
    have hne : d ≠ c := by
      rintro rfl
      exact h.not_quote (by simpa using hc)
    simp [text, inside, hne]
  | comment t closed => rfl
  | quoted t closed =>
    cases closed with
    | false => rfl
    | true =>
      obtain ⟨q, body, hq, rfl⟩ := h.exists_body
      by_cases hqc : q = c
      · simp [text, inside, hqc]
        omega
      · simp [text, inside, hqc]

theorem count_brace_textOf (h : ∀ l ∈ ls, l.Sound) (hc : c ∉ ['"', '\'']) :
    (textOf ls).count c = (bare ls ++ insideAll ls).count c := by
  induction ls with
  | nil => rfl
  | cons l ls ih =>
    obtain ⟨hl, hls⟩ := List.forall_mem_cons.mp h
    have hfirst := hl.count_brace hc
    have hrest := ih hls
    have hbare : bare (l :: ls) = bare [l] ++ bare ls := by simp [bare]
    have hinside : insideAll (l :: ls) = l.inside ++ insideAll ls := rfl
    rw [textOf_cons, hbare, hinside]
    simp only [List.count_append] at hrest ⊢
    omega

theorem count_quote_bare (h : ∀ l ∈ ls, l.Sound) (hc : c ∈ ['"', '\'']) : (bare ls).count c = 0 := by
  refine List.count_eq_zero_of_not_mem fun hmem => ?_
  obtain ⟨l, hl, hcl⟩ := List.mem_flatMap.mp hmem
  cases l with
  | plain d =>
    obtain rfl := List.mem_singleton.mp hcl
    exact (h _ hl).not_quote (by simpa using hc)
  | _ => cases hcl

theorem count_quote_textOf (h : ∀ l ∈ ls, l.Sound) (hc : c ∈ ['"', '\'']) :
    (textOf ls).count c % 2 = (insideAll ls).count c % 2 := by
  induction ls with
  | nil => rfl
  | cons l ls ih =>
    obtain ⟨hl, hls⟩ := List.forall_mem_cons.mp h
    have hfirst := hl.count_quote hc
    have hrest := ih hls
    have hinside : insideAll (l :: ls) = l.inside ++ insideAll ls := rfl
    rw [textOf_cons, hinside]
    simp only [List.count_append]
    omega

end Lexeme

theorem count_of_bracesBehind? {t : Text} {depth n : Nat} (h : bracesBehind? depth t = some n) :
    t.count '{' + depth = t.count '}' + n := by
  induction t generalizing depth with
  | nil =>
    obtain rfl := Option.some.inj h
    rfl
  | cons c t ih =>
    rw [bracesBehind?] at h
    split_ifs at h with hopen hclose hdepth
    · have hrest := ih h
      simp [hopen]
      omega
    · have hrest := ih h
      simp [hclose]
      omega
    · have hrest := ih h
      simpa [hopen, hclose] using hrest

namespace SheetFault

open Lexeme

theorem faults_congr {t u : Text}
    (hbraces : t.count '{' = t.count '}' ↔ u.count '{' = u.count '}')
    (hquotes : ∀ q ∈ ['"', '\''], t.count q % 2 = u.count q % 2) : faults t = faults u := by
  refine List.filter_congr fun f _ => ?_
  cases f with
  | braces => simp [occurs, hbraces]
  | singleQuotes => rw [occurs, occurs, hquotes '\'' (by simp)]
  | doubleQuotes => rw [occurs, occurs, hquotes '"' (by simp)]

/-- The check counts what stands outside of quoted texts and comments with what stands inside. -/
theorem faults_eq_bare_append (css : Text) :
    faults css = faults (bare (scan css) ++ insideAll (scan css)) := by
  have hsound := (scannable_scan css).sound
  have hbrace : ∀ c ∉ ['"', '\''],
      css.count c = (bare (scan css) ++ insideAll (scan css)).count c := fun c hc => by
    rw [← count_brace_textOf hsound hc, textOf_scan]
  refine faults_congr ?_ fun q hq => ?_
  · rw [hbrace '{' (by decide), hbrace '}' (by decide)]
  · have hquote := count_quote_textOf hsound hq
    rw [textOf_scan] at hquote
    rw [List.count_append, count_quote_bare hsound hq, Nat.zero_add, hquote]

theorem faults_of_wellFormed {css : Text} (h : WellFormed css) :
    faults css = faults (insideAll (scan css)) := by
  have hsound := (scannable_scan css).sound
  have hbraces := count_of_bracesBehind? h.braces
  rw [faults_eq_bare_append]
  refine faults_congr ?_ fun q hq => ?_
  · simp only [List.count_append]
    omega
  · rw [List.count_append, count_quote_bare hsound hq, Nat.zero_add]

theorem faults_eq_nil_iff (t : Text) :
    faults t = [] ↔ t.count '{' = t.count '}' ∧ ∀ q ∈ ['"', '\''], t.count q % 2 = 0 := by
  simp [faults, occurs, and_comm]

/-- The check agrees with the scanner about a well-formed text exactly if braces and quotes are in
equal and in even numbers inside of its quoted texts and comments, and about an ill-formed one
exactly if the inside does not make up for the outside. -/
theorem faults_eq_nil_iff_wellFormed_iff (css : Text) :
    let outside := bare (scan css)
    let within := insideAll (scan css)
    (faults css = [] ↔ WellFormed css) ↔
      (WellFormed css ∧ within.count '{' = within.count '}' ∧
        ∀ q ∈ ['"', '\''], within.count q % 2 = 0) ∨
      (¬ WellFormed css ∧
        ¬ (outside.count '{' + within.count '{' = outside.count '}' + within.count '}' ∧
          ∀ q ∈ ['"', '\''], within.count q % 2 = 0)) := by
  intro outside within
  by_cases h : WellFormed css
  · rw [faults_of_wellFormed h, faults_eq_nil_iff]
    simp [h, within]
  · have hquote : ∀ q ∈ ['"', '\''], (outside ++ within).count q = within.count q := by
      intro q hq
      rw [List.count_append, count_quote_bare (scannable_scan css).sound hq, Nat.zero_add]
    have hfaults : faults css = [] ↔
        outside.count '{' + within.count '{' = outside.count '}' + within.count '}' ∧
          ∀ q ∈ ['"', '\''], within.count q % 2 = 0 := by
      rw [faults_eq_bare_append, faults_eq_nil_iff, List.count_append, List.count_append]
      exact and_congr_right' (forall₂_congr fun q hq => by rw [hquote q hq])
    rw [hfaults]
    simp [h]

/-- An apostrophe in a quoted text is reported as a fault, and braces in the wrong order are not. -/
theorem faults_disagree :
    (WellFormed "a\x7bcontent:\"it's\"\x7d" ∧
      faults "a\x7bcontent:\"it's\"\x7d" = [singleQuotes]) ∧
    ¬ WellFormed "\x7d\x7b" ∧ faults "\x7d\x7b" = [] := by
  decide

end SheetFault

end Restyle
