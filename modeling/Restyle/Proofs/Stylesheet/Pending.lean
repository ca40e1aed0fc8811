import Restyle.Proofs.Stylesheet.Respacing

/-! # Texts that leave a declaration open

A semicolon closes a text that leaves nothing open but a declaration, and makes
no difference to its nodes. None is needed behind a semicolon or the end of a
block. Nor does it make a difference how many semicolons stand in a row where a
declaration may end.
-/

namespace Restyle

open Text Lexeme

namespace Snippet

/-- At the end of the text no quote, comment or parenthesis is open, so that a semicolon ends a
declaration. -/
structure Ending (t : Text) : Prop where
  closed : ∀ l ∈ (scan t).getLast?, l.closed = true
  depth : (({} : Draft).read (scan t)).depth = 0

/-- Nor is a block open. -/
structure Pending (t : Text) : Prop extends Ending t where
  outer : (({} : Draft).read (scan t)).outer = []

instance (t : Text) : Decidable (Ending t) :=
  decidable_of_iff ((∀ l ∈ (scan t).getLast?, l.closed = true) ∧
      (({} : Draft).read (scan t)).depth = 0)
    ⟨fun h => ⟨h.1, h.2⟩, fun h => ⟨h.closed, h.depth⟩⟩

instance (t : Text) : Decidable (Pending t) :=
  decidable_of_iff (Ending t ∧ (({} : Draft).read (scan t)).outer.isEmpty = true)
    ⟨fun h => ⟨h.1, List.isEmpty_iff.mp h.2⟩, fun h => ⟨h.toEnding, List.isEmpty_iff.mpr h.outer⟩⟩

variable {t u w x y part : Text} {c : Char}

section Ends

theorem Closed.pending (h : Closed t) : Pending t :=
  ⟨⟨h.closed, h.settled.depth⟩, h.settled.outer⟩

theorem Closed.ending_append (ht : Closed t) (hu : Ending u) : Ending (t ++ u) := by
  refine ⟨getLast?_scan_append ht hu.closed, ?_⟩
  rw [ht.read_append]
  exact hu.depth

theorem Closed.pending_append (ht : Closed t) (hu : Pending u) : Pending (t ++ u) := by
  refine ⟨ht.ending_append hu.toEnding, ?_⟩
  rw [ht.read_append, Draft.above, hu.outer]
  rfl

theorem Closed.ending_of_append (ht : Closed t) (h : Ending (t ++ u)) : Ending u := by
  refine ⟨fun l hl => h.closed l ?_, ?_⟩
  · rw [ht.scan_append, List.getLast?_append, hl]
    rfl
  · have hdepth := h.depth
    rwa [ht.read_append] at hdepth

theorem closed_of_concat (hc : c ∉ ['"', '\'', '\\', '/', '*'])
    (h : ∀ l ∈ (scan (t ++ [c])).getLast?, l.closed = true) :
    ∀ l ∈ (scan t).getLast?, l.closed = true := by
  simp only [List.mem_cons, List.not_mem_nil, or_false, not_or] at hc
  intro l hl
  by_contra hopen
  obtain ⟨ls, hls⟩ := List.getLast?_eq_some_iff.mp hl
  have hinert : Inert [c] := by simp [Inert, hc]
  rw [scan_append_of_open hinert hls (by simpa using hopen), List.getLast?_concat] at h
  exact absurd (h _ rfl) (by cases l <;> exact hopen)

theorem scan_concat (hc : c ∉ ['"', '\'', '\\', '/', '*'])
    (h : ∀ l ∈ (scan (t ++ [c])).getLast?, l.closed = true) :
    scan (t ++ [c]) = scan t ++ [.plain c] := by
  have hclosed := closed_of_concat hc h
  simp only [List.mem_cons, List.not_mem_nil, or_false, not_or] at hc
  have hscan : scan [c] = [.plain c] := by
    have hone := scan_eq_plain (c := c) (t := []) (by simp) (by simp [hc])
    rwa [scan] at hone
  have hapart : Apart (scan t) [c] := fun l hl => ⟨hclosed l hl, by simp [hc]⟩
  rw [scan_append hapart, hscan]

theorem Pending.trim (h : Pending t) : Pending (trim t) := by
  obtain ⟨w, w', hw, hw', he⟩ := exists_eq_trim t
  generalize Text.trim t = u at he ⊢
  subst he
  have hscan : scan (w ++ u ++ w') = w.map .plain ++ scan (u ++ w') := by
    rw [List.append_assoc, scan_blank_append hw]
  have hread : ({} : Draft).read (scan (w ++ u ++ w')) = ({} : Draft).read (scan (u ++ w')) := by
    rw [hscan, Draft.read_append, Draft.read_blank hw]
    rfl
  have hlast : ∀ l ∈ (scan (u ++ w')).getLast?, l.closed = true := by
    intro l hl
    refine h.closed l ?_
    rw [hscan, List.getLast?_append, hl]
    rfl
  by_cases hopen : ∀ l ∈ (scan u).getLast?, l.closed = true
  · have hapart : Apart (scan u) w' := by
      refine fun l hl => ⟨hopen l hl, fun _ hstar => ?_⟩
      exact hw'.ne_of_mem (List.mem_of_head? hstar) (by decide) rfl
    have hd := Draft.read_blank hw' (({} : Draft).read (scan u))
    rw [← Draft.read_append, ← scan_blank hw', ← scan_append hapart, ← hread] at hd
    have houter := h.outer
    have hdepth := h.depth
    rw [hd] at houter hdepth
    refine ⟨⟨hopen, ?_⟩, ?_⟩
    · split_ifs at hdepth <;> exact hdepth
    · split_ifs at houter <;> exact houter
  · push Not at hopen
    obtain ⟨l, hl, hlopen⟩ := hopen
    obtain ⟨ls, hls⟩ := List.getLast?_eq_some_iff.mp hl
    rw [scan_append_of_open (inert_of_blank hw') hls (by simpa using hlopen), List.getLast?_concat] at hlast
    exact absurd (hlast _ rfl) (by cases l <;> exact hlopen)

theorem Pending.semicolon (h : Pending t) :
    Closed (t ++ ";") ∧ Node.ofText (t ++ ";") = Node.ofText t := by
  have hapart : Apart (scan t) [';'] := fun l hl => ⟨h.closed l hl, by simp⟩
  have hscan : scan (t ++ ";") = scan t ++ [.plain ';'] := (scan_append hapart).trans (by rfl)
  have hread : ({} : Draft).read (scan (t ++ ";")) =
      (({} : Draft).read (scan t)).closeDeclaration := by
    rw [hscan, Draft.read_append]
    exact if_pos ⟨rfl, h.depth⟩
  refine ⟨⟨fun l hl => ?_, ?_⟩, ?_⟩
  · rw [hscan, List.getLast?_concat] at hl
    obtain rfl := Option.some.inj hl
    rfl
  · rw [hread]
    exact ⟨h.outer, rfl, h.depth⟩
  · rw [Node.ofText_eq_finish, hread, Node.ofText_eq_finish, Draft.finish, Draft.finish,
      Draft.closeDeclaration, h.outer]
    simp [Draft.flushed]

theorem step_semicolon {d : Draft} (hd : d.depth ≠ 0) : d.step (.plain ';') = d.add [';'] := by
  have hblank : isBlank ';' = false := by decide
  simp [Draft.step, hd, Draft.addChar, hblank]

/-- Behind a semicolon or the end of a block no declaration is open. -/
theorem Pending.closed_of_last (h : Pending (t ++ [c])) (hc : c = ';' ∨ c = '}') :
    Closed (t ++ [c]) := by
  have hscan : scan (t ++ [c]) = scan t ++ [.plain c] :=
    scan_concat (by rcases hc with rfl | rfl <;> decide) h.closed
  have hread : ({} : Draft).read (scan (t ++ [c])) = (({} : Draft).read (scan t)).step (.plain c) := by
    rw [hscan, Draft.read_append]
    rfl
  refine ⟨h.closed, h.outer, ?_, h.depth⟩
  have hdepth := h.depth
  rw [hread] at hdepth ⊢
  generalize ({} : Draft).read (scan t) = d at hdepth ⊢
  rcases hc with rfl | rfl
  · by_cases hd : d.depth = 0
    · simp [Draft.step, hd, Draft.closeDeclaration]
    · rw [step_semicolon hd] at hdepth
      exact absurd hdepth hd
  · have hstep : d.step (.plain '}') = d.closeBlock := rfl
    rw [hstep, Draft.closeBlock]
    split <;> rfl

theorem Closed.ending_of_semicolon (h : Closed (t ++ ";")) : Ending t := by
  have hscan : scan (t ++ ";") = scan t ++ [.plain ';'] := scan_concat (by decide) h.closed
  refine ⟨closed_of_concat (by decide) h.closed, ?_⟩
  by_contra hdepth
  have hsettled := h.settled.depth
  rw [hscan, Draft.read_append] at hsettled
  exact hdepth ((congrArg Draft.depth (step_semicolon hdepth)).symm.trans hsettled)

/-- Behind a closed text stands white space, or a character that ends a lexeme or a node. -/
theorem Closed.isBlank_of_concat (h : Closed (t ++ [c]))
    (hc : c ∉ ['"', '\'', '\\', '/', '*', '{', '}', ';']) : isBlank c = true := by
  simp only [List.mem_cons, List.not_mem_nil, or_false, not_or] at hc
  have htext := h.settled.text
  rw [scan_concat (by simp [hc]) h.closed, Draft.read_append] at htext
  exact (Draft.text_step_eq_nil (by simp [hc]) htext).2

theorem Closed.contains_append (h : Closed t) (hne : part ≠ [])
    (hpart : ∀ c ∈ part, c ∉ ['"', '\'', '\\', '/', '*', '{', '}', ';'] ∧ isBlank c = false) (u : Text) :
    contains (t ++ u) part = (contains t part || contains u part) := by
  rcases List.eq_nil_or_concat t with rfl | ⟨t, c, rfl⟩
  · rw [contains_nil hne, Bool.false_or, List.nil_append]
  · rw [List.concat_eq_append] at h ⊢
    have hc : c ∉ part := by
      intro hmem
      obtain ⟨hother, hvisible⟩ := hpart c hmem
      rw [h.isBlank_of_concat hother] at hvisible
      exact Bool.false_ne_true hvisible.symm
    rw [List.append_assoc, List.singleton_append, contains_append_cons hne hc,
      contains_append_cons hne hc, contains_nil hne, Bool.or_false]

end Ends

end Snippet

end Restyle
