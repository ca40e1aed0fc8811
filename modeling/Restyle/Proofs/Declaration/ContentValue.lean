import Restyle.Declaration.Value
import Restyle.Proofs.Stylesheet.Declaring

/-! # Content values inside their declaration

A text that is quoted for the `content` property is one quoted text to the
scanner, and taking the backslashes away gives it back. What is kept as it
stands stays inside its declaration only if it is a chunk.
-/

namespace Restyle.Declaration

open Text Lexeme

/-- The text that a quoted text stands for: a backslash shields the next character. -/
def unescape : Text → Text
  | [] => []
  | '\\' :: c :: t => c :: unescape t
  | c :: t => c :: unescape t

/-- A text that becomes a content value as it stands. -/
structure KeptAsContent (t : Text) : Prop where
  notKeyword : lower t ∉ contentKeywords
  marked : isContentFunction t = true ∨ isQuoted t = true

variable {t u : Text} {c : Char}

theorem escapeContent_cons (c : Char) (t : Text) : escapeContent (c :: t) =
    (if c = '\\' ∨ c = '"' then ['\\', c] else [c]) ++ escapeContent t :=
  List.flatMap_cons

theorem unescape_escapeContent (t : Text) : unescape (escapeContent t) = t := by
  induction t with
  | nil => rfl
  | cons c t ih =>
    rw [escapeContent_cons]
    split
    · exact congrArg (c :: ·) ih
    · rename_i hc
      rw [List.singleton_append, unescape.eq_3 _ _ fun _ _ hb _ => hc (Or.inl hb), ih]

/-- Inside a quoted text an escaped text ends nothing. -/
theorem scanQuoted_escapeContent (seen t u : Text) :
    scanQuoted '"' seen (escapeContent t ++ u) =
      scanQuoted '"' ((escapeContent t).reverse ++ seen) u := by
  induction t generalizing seen with
  | nil => rfl
  | cons c t ih =>
    rw [escapeContent_cons]
    split
    · rw [List.cons_append, List.singleton_append, List.cons_append, List.cons_append,
        scanQuoted_shield, ih]
      simp
    · rename_i hc
      obtain ⟨hb, hq⟩ := not_or.mp hc
      rw [List.singleton_append, List.cons_append, scanQuoted_char hq (absurd · hb), ih]
      simp

def inQuotes (t : Text) : Text :=
  '"' :: (escapeContent t ++ ['"'])

theorem scan_inQuotes (t : Text) : scan (inQuotes t) = [.quoted (inQuotes t) true] := by
  rw [inQuotes, scan_quote (Or.inl rfl), scanQuoted_escapeContent, scanQuoted_end (by decide), scan]
  simp

theorem chunk_inQuotes (t : Text) : Chunk (inQuotes t) := by
  refine ⟨?_, ?_, ⟨?_, ?_⟩, List.cons_ne_nil _ _⟩
  · rw [scan_inQuotes]
    rfl
  · simp [scan_inQuotes, Lexeme.closed]
  · rintro c ⟨⟩
    decide
  · intro c hc
    rw [inQuotes, ← List.cons_append, List.getLast?_concat] at hc
    obtain rfl := Option.some.inj hc
    decide

theorem chunk_of_mem_contentKeywords (h : t ∈ contentKeywords) : Chunk t := by
  have hall : ∀ k ∈ contentKeywords, Chunk k := by decide
  exact hall t h

section Value

theorem contentValue_of_keyword (h : lower (trim t) ∈ contentKeywords) :
    contentValue t = lower (trim t) := by
  have hne : trim t ≠ [] := fun he => absurd (he ▸ h) (by decide)
  simp [contentValue, hne, h]

theorem contentValue_of_kept (h : KeptAsContent (trim t)) : contentValue t = trim t := by
  have hne : trim t ≠ [] := fun he => absurd (he ▸ h.marked) (by decide)
  simp [contentValue, hne, h.notKeyword, h.marked]

theorem contentValue_of_other (hne : trim t ≠ []) (hk : lower (trim t) ∉ contentKeywords)
    (h : ¬ KeptAsContent (trim t)) : contentValue t = inQuotes (trim t) := by
  have hm : ¬ (isContentFunction (trim t) = true ∨ isQuoted (trim t) = true) := fun hm => h ⟨hk, hm⟩
  simp [contentValue, hne, hk, hm, inQuotes]

theorem trim_ne_nil_of_contentValue (h : contentValue t ≠ []) : trim t ≠ [] :=
  fun he => h (by simp [contentValue, he])

/-- A content value is a chunk unless it is a text kept as it stands that is none. -/
theorem chunk_contentValue_iff (h : contentValue t ≠ []) :
    Chunk (contentValue t) ↔ (KeptAsContent (trim t) → Chunk (trim t)) := by
  by_cases hk : lower (trim t) ∈ contentKeywords
  · have hv : Chunk (contentValue t) := by
      rw [contentValue_of_keyword hk]
      exact chunk_of_mem_contentKeywords hk
    exact iff_of_true hv fun hkept => absurd hk hkept.notKeyword
  · by_cases hkept : KeptAsContent (trim t)
    · rw [contentValue_of_kept hkept]
      exact ⟨fun hv _ => hv, fun hv => hv hkept⟩
    · rw [contentValue_of_other (trim_ne_nil_of_contentValue h) hk hkept]
      exact iff_of_true (chunk_inQuotes _) fun hc => absurd hc hkept

theorem trimmed_contentValue (h : contentValue t ≠ []) : Trimmed (contentValue t) := by
  by_cases hk : lower (trim t) ∈ contentKeywords
  · rw [contentValue_of_keyword hk]
    exact (chunk_of_mem_contentKeywords hk).trimmed
  · by_cases hkept : KeptAsContent (trim t)
    · rw [contentValue_of_kept hkept]
      exact trimmed_trim t
    · rw [contentValue_of_other (trim_ne_nil_of_contentValue h) hk hkept]
      exact (chunk_inQuotes _).trimmed

end Value

theorem scan_content_append (v : Text) :
    scan ("content: " ++ v) = ("content: " : Text).map .plain ++ scan v := by
  have hplain : scan "content: " = ("content: " : Text).map .plain :=
    (Plain.of_forall (by decide)).scan_eq
  have hlast : (("content: " : Text).map Lexeme.plain).getLast? = some (.plain ' ') := by decide
  have hapart : Apart (scan "content: ") v := by
    intro l hl
    rw [hplain, hlast] at hl
    obtain rfl := Option.some.inj hl
    exact ⟨rfl, fun he => absurd he (by decide)⟩
  rw [scan_append hapart, hplain]

theorem trimmed_content_append {v : Text} (hv : Trimmed v) (hne : v ≠ []) :
    Trimmed ("content: " ++ v) :=
  (by decide : Trimmed "content:").append hv (by decide) hne " "

theorem chunk_content_append_iff {v : Text} (hv : Trimmed v) (hne : v ≠ []) :
    Chunk ("content: " ++ v) ↔ Chunk v := by
  have hdepth : depthBehind? 0 (scan ("content: " ++ v)) = depthBehind? 0 (scan v) := by
    rw [scan_content_append]
    rfl
  have hlast : (scan ("content: " ++ v)).getLast? = (scan v).getLast? := by
    rw [scan_content_append, List.getLast?_append_of_ne_nil _ (mt scan_eq_nil.mp hne)]
  refine ⟨fun h => ?_, fun h => ?_⟩
  · exact ⟨hdepth ▸ h.balanced, hlast ▸ h.closed, hv, hne⟩
  · exact ⟨hdepth.trans h.balanced, hlast ▸ h.closed, trimmed_content_append hv hne, by simp⟩

/-- The declaration of a content value is read as it is written exactly if the text is a chunk
where it is kept as it stands. Any other text but a keyword becomes one quoted text that stands
for it. -/
theorem content_read_iff (h : contentValue t ≠ []) :
    (Node.ofText ("content: " ++ contentValue t ++ ";") =
        [.declaration ("content: " ++ contentValue t)] ↔
      (KeptAsContent (trim t) → Chunk (trim t))) ∧
    (lower (trim t) ∉ contentKeywords → isContentFunction (trim t) = false →
      isQuoted (trim t) = false →
      scan (contentValue t) = [.quoted (contentValue t) true] ∧
        ∃ body, contentValue t = '"' :: (body ++ ['"']) ∧ unescape body = trim t) := by
  have hv := trimmed_contentValue h
  constructor
  · rw [ofText_append_semicolon_iff (trimmed_content_append hv h) (by simp) (by simp),
      chunk_content_append_iff hv h, chunk_contentValue_iff h]
  · intro hk hf hq
    have hother : ¬ KeptAsContent (trim t) := fun hkept => by simpa [hf, hq] using hkept.marked
    rw [contentValue_of_other (trim_ne_nil_of_contentValue h) hk hother]
    exact ⟨scan_inQuotes _, escapeContent (trim t), rfl, unescape_escapeContent _⟩

theorem content_read_icon : contentValue " \\e900\"" ≠ [] ∧
    Node.ofText ("content: " ++ contentValue " \\e900\"" ++ ";") =
      [.declaration ("content: " ++ contentValue " \\e900\"")] := by
  have hne : contentValue " \\e900\"" ≠ [] := by decide
  have hkept : ¬ KeptAsContent (trim " \\e900\"") := fun h => absurd h.marked (by decide)
  exact ⟨hne, (content_read_iff hne).1.mpr fun h => absurd h hkept⟩

/-- A text that begins and ends with the same quote is kept although it holds three declarations. -/
theorem content_read_as_three :
    contentValue "\"a\"; color: red; \"b\"" = "\"a\"; color: red; \"b\"" ∧
    Node.ofText ("content: " ++ contentValue "\"a\"; color: red; \"b\"" ++ ";") =
      [.declaration "content: \"a\"", .declaration "color: red", .declaration "\"b\""] :=
  ⟨by decide, by rfl⟩

end Restyle.Declaration
