import Restyle.Proofs.Stylesheet.Joining
import Restyle.Proofs.Stylesheet.Reading
import Restyle.Proofs.Text.Lines

/-! # Texts that are read as they are written

A declaration or a selector is read as it is written if it has no comment, no
brace and no semicolon outside parentheses, and leaves nothing open. Put
together with semicolons, braces and line feeds such texts yield the nodes that
they spell, wherever they are read.
-/

namespace Restyle

open Text Lexeme

/-- The depth of open parentheses behind the lexemes of a declaration or a selector, if nothing
else comes in between. -/
def depthBehind? : Nat → List Lexeme → Option Nat
  | depth, [] => some depth
  | depth, .quoted _ _ :: ls => depthBehind? depth ls
  | _, .comment _ _ :: _ => none
  | depth, .plain c :: ls =>
    if c = '(' then depthBehind? (depth + 1) ls
    else if c = ')' then depthBehind? (depth - 1) ls
    else if c = '{' ∨ c = '}' ∨ c = ';' ∧ depth = 0 then none
    else depthBehind? depth ls

/-- A declaration or a selector that is read as it is written. -/
structure Chunk (t : Text) : Prop where
  balanced : depthBehind? 0 (scan t) = some 0
  closed : ∀ l ∈ (scan t).getLast?, l.closed = true
  trimmed : Trimmed t
  ne_nil : t ≠ []

instance (t : Text) : Decidable (Chunk t) :=
  decidable_of_iff (depthBehind? 0 (scan t) = some 0 ∧
      (∀ l ∈ (scan t).getLast?, l.closed = true) ∧ Trimmed t ∧ t ≠ [])
    ⟨fun h => ⟨h.1, h.2.1, h.2.2.1, h.2.2.2⟩, fun h => ⟨h.1, h.2, h.3, h.4⟩⟩

variable {t u w : Text} {ls : List Lexeme} {d : Draft} {ns ms : List Node} {n : Nat}

theorem Draft.addChar_of_visible {c : Char} (h : d.text = [] → isBlank c = false) :
    d.addChar c = d.add [c] := by
  refine if_neg fun hc => ?_
  simp only [Bool.and_eq_true, List.isEmpty_iff] at hc
  rw [h hc.1] at hc
  exact Bool.false_ne_true hc.2

theorem Draft.step_of_depthBehind? {l : Lexeme} (h : depthBehind? d.depth (l :: ls) = some n)
    (hv : d.text = [] → ∀ c, l = .plain c → isBlank c = false) :
    ∃ depth, d.step l = { d.add l.text with depth } ∧ depthBehind? depth ls = some n := by
  cases l with
  | quoted t closed => exact ⟨d.depth, rfl, h⟩
  | comment t closed => exact absurd h (by simp [depthBehind?])
  | plain c =>
    have hadd := d.addChar_of_visible fun ht => hv ht c rfl
    unfold depthBehind? at h
    split_ifs at h with h₁ h₂ h₃
    · exact ⟨d.depth + 1, by simp [step, h₁, Lexeme.text, add], h⟩
    · exact ⟨d.depth - 1, by simp [step, h₂, Lexeme.text, add], h⟩
    · simp only [not_or] at h₃
      exact ⟨d.depth, by simp [step, h₁, h₂, h₃, hadd, Lexeme.text, add], h⟩

theorem Draft.read_of_depthBehind? (h : depthBehind? d.depth ls = some n)
    (hv : d.text = [] → ∀ c, ls.head? = some (.plain c) → isBlank c = false)
    (hls : ∀ l ∈ ls, l.Sound) :
    d.read ls = { d with text := (textOf ls).reverse ++ d.text, depth := n } := by
  induction ls generalizing d with
  | nil =>
    obtain rfl := Option.some.inj h
    rfl
  | cons l ls ih =>
    obtain ⟨hl, hls⟩ := List.forall_mem_cons.mp hls
    obtain ⟨depth, hstep, h'⟩ :=
      step_of_depthBehind? h fun ht c hc => hv ht c (congrArg some hc)
    have hread : d.read (l :: ls) = (d.step l).read ls := rfl
    have hne : l.text ≠ [] := hl.text_ne_nil
    rw [hread, hstep, ih h' (fun ht => absurd ht (by simp [add, hne])) hls]
    simp [add]

theorem Chunk.apart (h : Chunk t) (hu : u.head? ≠ some '*') : Apart (scan t) u :=
  fun l hl => ⟨h.closed l hl, fun _ => hu⟩

/-- A chunk is read as it is written, wherever it stands. -/
theorem Chunk.read (h : Chunk t) (outer : List Draft.Frame) (nodes : List Node) :
    ({ outer, nodes } : Draft).read (scan t) = { outer, nodes, text := t.reverse } := by
  have hhead : ∀ c, (scan t).head? = some (.plain c) → isBlank c = false :=
    fun c hc => h.trimmed.1 c (head?_of_scan hc)
  rw [Draft.read_of_depthBehind? h.balanced (fun _ => hhead) (scannable_scan t).sound]
  simp [textOf_scan]

theorem Chunk.read_open (h : Chunk t) (hw : Blank w) (outer : List Draft.Frame) (nodes : List Node) :
    ({ outer, nodes, text := t.reverse } : Draft).read ((w ++ ['{']).map .plain) =
      { outer := ⟨nodes, t⟩ :: outer } := by
  have hfree : ∀ c ∈ w, c ∉ ['{', '}', ';'] := fun c hc => hw.notMem hc (by decide)
  have hread := Draft.readText_of_text_ne_nil hfree outer nodes 0 (by simp [h.ne_nil] : t.reverse ≠ [])
  have htrim : trim (t ++ w) = t := by
    rw [trim_append_blank t hw, h.trimmed.trim_eq]
  rw [(Segment.of_blank hw).parens] at hread
  rw [← Draft.readText, Draft.readText_append, hread]
  simp [Draft.readText, Draft.read, Draft.step, Draft.openBlock, htrim]

theorem Chunk.scan_braces (h : Chunk t) (hw : Blank w) (hu : Snippet.Closed u) :
    scan (t ++ (w ++ '{' :: (u ++ ['}']))) =
      scan t ++ ((w ++ ['{']).map .plain ++ (scan u ++ [.plain '}'])) := by
  have hhead : (w ++ '{' :: (u ++ ['}'])).head? ≠ some '*' := by
    rcases w with _ | ⟨c, w⟩
    · simp
    · rintro hc
      obtain rfl := Option.some.inj hc
      exact absurd (hw '*' List.mem_cons_self) (by decide)
  have hplain : scan (w ++ ['{']) = (w ++ ['{']).map .plain :=
    ((Segment.of_blank hw).plain.append_cons .nil (by decide)).scan_eq
  have hopen : Apart (scan (w ++ ['{'])) (u ++ ['}']) := by
    intro l hl
    rw [hplain, List.map_append, List.map_singleton, List.getLast?_concat] at hl
    obtain rfl := Option.some.inj hl
    exact ⟨rfl, by simp⟩
  have hlast : scan ['}'] = [.plain '}'] := by rfl
  rw [scan_append (h.apart hhead), List.append_cons, scan_append hopen, hu.scan_append, hplain, hlast]

/-- Wherever a text is read between nodes, it adds some nodes and leaves nothing open. -/
structure Yields (ns : List Node) (t : Text) : Prop where
  closed : ∀ l ∈ (scan t).getLast?, l.closed = true
  reads : ∀ outer nodes, ({ outer, nodes } : Draft).read (scan t) =
    { outer, nodes := ns.reverse ++ nodes }

namespace Yields

theorem toClosed (h : Yields ns t) : Snippet.Closed t := by
  refine ⟨h.closed, ?_⟩
  rw [h.reads [] []]
  exact ⟨rfl, rfl, rfl⟩

theorem ofText (h : Yields ns t) : Node.ofText t = ns := by
  rw [Node.ofText_eq_finish, h.reads [] []]
  simp [Draft.finish, Draft.flushed]

theorem nil : Yields [] [] :=
  ⟨by simp [scan], fun _ _ => rfl⟩

theorem of_blank (hw : Blank w) : Yields [] w := by
  refine ⟨fun l hl => ?_, fun outer nodes => ?_⟩
  · rw [scan_blank hw] at hl
    obtain ⟨a, -, rfl⟩ := List.mem_map.mp (List.mem_of_getLast? hl)
    rfl
  · rw [scan_blank hw]
    induction w with
    | nil => rfl
    | cons a w ih =>
      obtain ⟨ha, hw⟩ := blank_cons.mp hw
      have hstep : ({ outer, nodes } : Draft).step (.plain a) = { outer, nodes } :=
        Draft.step_blank rfl ha
      exact (congrArg (Draft.read · (w.map .plain)) hstep).trans (ih hw)

theorem append (ht : Yields ns t) (hu : Yields ms u) : Yields (ns ++ ms) (t ++ u) := by
  refine ⟨(Snippet.getLast?_scan_append ht.toClosed hu.closed), fun outer nodes => ?_⟩
  rw [ht.toClosed.scan_append, Draft.read_append, ht.reads, hu.reads, List.reverse_append,
    List.append_assoc]

theorem blank_append (hw : Blank w) (ht : Yields ns t) : Yields ns (w ++ t) :=
  (of_blank hw).append ht

theorem declaration (h : Chunk t) : Yields [.declaration t] (t ++ ";") := by
  have hscan : scan (t ++ ";") = scan t ++ [.plain ';'] := scan_append (h.apart (by decide))
  refine ⟨fun l hl => ?_, fun outer nodes => ?_⟩
  · rw [hscan, List.getLast?_concat] at hl
    obtain rfl := Option.some.inj hl
    rfl
  · rw [hscan, Draft.read_append, h.read]
    simp [Draft.read, Draft.step, Draft.closeDeclaration, Draft.flushed, h.trimmed.trim_eq, h.ne_nil]

theorem braces (h : Chunk t) (hw : Blank w) (hu : Yields ns u) :
    Yields [.block t ns] (t ++ (w ++ '{' :: (u ++ ['}']))) := by
  have hscan := h.scan_braces hw hu.toClosed
  refine ⟨fun l hl => ?_, fun outer nodes => ?_⟩
  · rw [hscan, ← List.append_assoc, ← List.append_assoc, List.getLast?_concat] at hl
    obtain rfl := Option.some.inj hl
    rfl
  · have hclose : ({ outer := ⟨nodes, t⟩ :: outer, nodes := ns.reverse } : Draft).read [.plain '}'] =
        { outer, nodes := .block t ns :: nodes } := by
      simp [Draft.read, Draft.step, Draft.closeBlock, Draft.flushed]
    rw [hscan, Draft.read_append, h.read, Draft.read_append, h.read_open hw, Draft.read_append,
      hu.reads, List.append_nil, hclose]
    rfl

theorem block (h : Chunk t) (hu : Yields ns u) :
    Yields [.block t ns] (t ++ " \x7b\n" ++ u ++ "\n\x7d") := by
  have hbody : Yields ns (['\n'] ++ u ++ ['\n']) := by
    have hlines := (hu.blank_append (by decide : Blank ['\n'])).append (of_blank (by decide : Blank ['\n']))
    rwa [List.append_nil] at hlines
  have hblock := braces h (by decide : Blank [' ']) hbody
  simpa using hblock

/-- Texts on lines of their own yield their nodes one after the other. -/
theorem join {parts : List (List Node × Text)} (h : ∀ p ∈ parts, Yields p.1 p.2) :
    Yields (parts.flatMap (·.1)) (Text.join "\n" (parts.map (·.2))) := by
  induction parts with
  | nil => exact nil
  | cons p parts ih =>
    obtain ⟨hp, h⟩ := List.forall_mem_cons.mp h
    rcases parts with _ | ⟨q, parts⟩
    · simpa using hp
    · rw [List.map_cons, List.map_cons, join_cons_cons, List.flatMap_cons]
      exact hp.append ((ih h).blank_append (by decide))

end Yields

end Restyle
