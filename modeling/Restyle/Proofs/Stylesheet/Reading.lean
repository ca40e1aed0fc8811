import Restyle.Proofs.Stylesheet.Draft

/-! # Reading plain texts

A plain text without braces and semicolons, whose parentheses balance, is the
prelude of a block or a declaration. Put together with braces and semicolons
such texts add the same nodes wherever they are read.
-/

namespace Restyle

open Text

def parensBehind : Nat → Text → Nat
  | depth, [] => depth
  | depth, c :: t =>
    parensBehind (if c = '(' then depth + 1 else if c = ')' then depth - 1 else depth) t

/-- The number of braces open behind a text, unless one closes nothing. -/
def bracesBehind? : Nat → Text → Option Nat
  | depth, [] => some depth
  | depth, c :: t =>
    if c = '{' then bracesBehind? (depth + 1) t
    else if c = '}' then if depth = 0 then none else bracesBehind? (depth - 1) t
    else bracesBehind? depth t

structure Segment (t : Text) : Prop where
  plain : Lexeme.Plain t
  free : ∀ c ∈ t, c ∉ ['{', '}', ';']
  parens : parensBehind 0 t = 0

instance (t : Text) : Decidable (Segment t) :=
  decidable_of_iff (Lexeme.Plain t ∧ (t.all fun c => decide (c ∉ ['{', '}', ';'])) = true ∧
      parensBehind 0 t = 0)
    ⟨fun h => ⟨h.1, by simpa using h.2.1, h.2.2⟩,
      fun h => ⟨h.plain, by simpa using h.free, h.parens⟩⟩

variable {t u w : Text} {c : Char} {P Q : List Node → Prop} {ns : List Node}

theorem parensBehind_append (depth : Nat) (t u : Text) :
    parensBehind depth (t ++ u) = parensBehind (parensBehind depth t) u := by
  induction t generalizing depth with
  | nil => rfl
  | cons c t ih => exact ih _

theorem parensBehind_cons (h : c ∉ ['(', ')']) (depth : Nat) (t : Text) :
    parensBehind depth (c :: t) = parensBehind depth t := by
  simp only [List.mem_cons, List.not_mem_nil, or_false, not_or] at h
  rw [parensBehind, if_neg h.1, if_neg h.2]

theorem parensBehind_of_forall (h : ∀ c ∈ t, c ∉ ['(', ')']) (depth : Nat) :
    parensBehind depth t = depth := by
  induction t with
  | nil => rfl
  | cons c t ih =>
    rw [parensBehind_cons (h c List.mem_cons_self), ih fun d hd => h d (List.mem_cons_of_mem c hd)]

namespace Segment

theorem of_forall (h : ∀ c ∈ t, c ∉ ['"', '\'', '/', '{', '}', ';', '(', ')']) : Segment t := by
  simp only [List.mem_cons, List.not_mem_nil, or_false, not_or] at h
  refine ⟨.of_forall fun c hc => ?_, fun c hc => ?_, parensBehind_of_forall (fun c hc => ?_) 0⟩ <;>
    simp [h c hc]

theorem of_blank (hw : Blank w) : Segment w := by
  exact of_forall fun c hc => hw.notMem hc (by decide)

theorem append (ht : Segment t) (hu : Segment u)
    (h : t.getLast? ≠ some '/' ∨ u.head? ≠ some '*') : Segment (t ++ u) := by
  refine ⟨ht.plain.append hu.plain h, ?_, ?_⟩
  · intro c hc
    exact (List.mem_append.mp hc).elim (ht.free c) (hu.free c)
  · rw [parensBehind_append, ht.parens, hu.parens]

theorem append_cons (ht : Segment t) (hu : Segment u) (hc : c ∈ [',', ':']) :
    Segment (t ++ c :: u) := by
  have hne : c ∉ ['"', '\'', '/', '*'] ∧ c ∉ ['{', '}', ';'] ∧ c ∉ ['(', ')'] := by
    rcases List.mem_pair.mp hc with rfl | rfl <;> decide
  refine ⟨ht.plain.append_cons hu.plain hne.1, ?_, ?_⟩
  · intro d hd
    rcases List.mem_append.mp hd with hd | hd
    · exact ht.free d hd
    · rcases List.mem_cons.mp hd with rfl | hd
      · exact hne.2.1
      · exact hu.free d hd
  · rw [parensBehind_append, ht.parens, parensBehind_cons hne.2.2, hu.parens]

theorem blank_append (hw : Blank w) (ht : Segment t) : Segment (w ++ t) := by
  refine (of_blank hw).append ht (Or.inl fun h => ?_)
  exact hw.ne_of_mem (List.mem_of_getLast? h) (by decide : isBlank '/' = false) rfl

theorem append_blank (ht : Segment t) (hw : Blank w) : Segment (t ++ w) := by
  refine ht.append (of_blank hw) (Or.inr fun h => ?_)
  exact hw.ne_of_mem (List.mem_of_head? h) (by decide : isBlank '*' = false) rfl

end Segment

theorem trim_trimStart (t : Text) : trim (trimStart t) = trim t := by
  rw [trim, trimStart, trimStart, List.dropWhile_idempotent]
  rfl

namespace Draft

def readText (d : Draft) (t : Text) : Draft :=
  d.read (t.map .plain)

variable {d : Draft}

theorem readText_cons (d : Draft) (c : Char) (t : Text) :
    d.readText (c :: t) = (d.step (.plain c)).readText t := rfl

theorem readText_append (d : Draft) (t u : Text) :
    d.readText (t ++ u) = (d.readText t).readText u := by
  rw [readText, List.map_append, read_append]
  rfl

theorem step_of_free (hc : c ∉ ['{', '}', ';']) (outer : List Frame) (nodes : List Node)
    (depth : Nat) (hu : u ≠ [] ∨ isBlank c = false) :
    (⟨outer, nodes, u, depth⟩ : Draft).step (.plain c) =
      ⟨outer, nodes, c :: u, parensBehind depth [c]⟩ := by
  simp only [List.mem_cons, List.not_mem_nil, or_false, not_or] at hc
  have hadd : (⟨outer, nodes, u, depth⟩ : Draft).add [c] = ⟨outer, nodes, c :: u, depth⟩ := rfl
  have haddChar : (⟨outer, nodes, u, depth⟩ : Draft).addChar c =
      ⟨outer, nodes, c :: u, depth⟩ := by
    rw [addChar, if_neg, hadd]
    rcases hu with hu | hb <;> simp [*]
  simp only [step, hc, hadd, haddChar, parensBehind, false_and, if_false]
  split_ifs <;> rfl

theorem readText_of_text_ne_nil (ht : ∀ c ∈ t, c ∉ ['{', '}', ';']) (outer : List Frame)
    (nodes : List Node) (depth : Nat) (hu : u ≠ []) :
    (⟨outer, nodes, u, depth⟩ : Draft).readText t =
      ⟨outer, nodes, t.reverse ++ u, parensBehind depth t⟩ := by
  induction t generalizing depth u with
  | nil => rfl
  | cons c t ih =>
    rw [readText_cons, step_of_free (ht c List.mem_cons_self) _ _ _ (Or.inl hu),
      ih (fun c hc => ht c (List.mem_cons_of_mem _ hc)) _ (List.cons_ne_nil _ _),
      List.reverse_cons, List.append_assoc]
    rfl

theorem readText_of_free (ht : ∀ c ∈ t, c ∉ ['{', '}', ';']) (outer : List Frame)
    (nodes : List Node) :
    ({ outer, nodes } : Draft).readText t =
      ⟨outer, nodes, (trimStart t).reverse, parensBehind 0 t⟩ := by
  induction t with
  | nil => rfl
  | cons c t ih =>
    have hc := ht c List.mem_cons_self
    have ht' : ∀ c ∈ t, c ∉ ['{', '}', ';'] := fun c hc => ht c (List.mem_cons_of_mem _ hc)
    cases hb : isBlank c with
    | true =>
      have hstep : ({ outer, nodes } : Draft).step (.plain c) =
          { outer, nodes } := by
        have hne {d : Char} (hd : isBlank d = false) : c ≠ d := by
          rintro rfl
          simp [hb] at hd
        simp only [List.mem_cons, List.not_mem_nil, or_false, not_or] at hc
        simp [step, hc, hne (d := '(') (by decide), hne (d := ')') (by decide), addChar, hb]
      have hp : parensBehind 0 (c :: t) = parensBehind 0 t := by
        rw [← List.singleton_append, parensBehind_append,
          (Segment.of_blank (blank_cons.mpr ⟨hb, Blank.nil⟩)).parens]
      rw [readText_cons, hstep, ih ht', hp, ← List.singleton_append,
        trimStart_append (blank_cons.mpr ⟨hb, Blank.nil⟩)]
    | false =>
      rw [readText_cons, step_of_free hc _ _ _ (Or.inr hb),
        readText_of_text_ne_nil ht' _ _ _ (List.cons_ne_nil _ _), trimStart_cons_of_not_blank hb,
        List.reverse_cons]
      rfl

theorem readText_segment (ht : Segment t) (outer : List Frame) (nodes : List Node) :
    ({ outer, nodes } : Draft).readText t = { outer, nodes, text := (trimStart t).reverse } := by
  rw [readText_of_free ht.free, ht.parens]

theorem readText_open (ht : Segment t) (outer : List Frame) (nodes : List Node) :
    ({ outer, nodes } : Draft).readText (t ++ ['{']) = { outer := ⟨nodes, trim t⟩ :: outer } := by
  rw [readText_append, readText_segment ht]
  simp [readText, read, step, openBlock, trim_trimStart]

theorem outer_step_of_ne (d : Draft) (ho : c ≠ '{') (hc : c ≠ '}') :
    (d.step (.plain c)).outer = d.outer := by
  simp only [step, addChar, add, closeDeclaration, ho, hc, if_false]
  split_ifs <;> rfl

theorem outer_closeBlock (d : Draft) : d.closeBlock.outer = d.outer.tail := by
  rcases h : d.outer with _ | ⟨f, outer⟩ <;> simp [closeBlock, h]

theorem outer_readText {n : Nat} {d : Draft} (inner outer : List Frame)
    (h : bracesBehind? inner.length t = some n) (hd : d.outer = inner ++ outer) :
    ∃ inner' : List Frame, inner'.length = n ∧ (d.readText t).outer = inner' ++ outer := by
  induction t generalizing d inner with
  | nil => exact ⟨inner, by simpa [bracesBehind?] using h, hd⟩
  | cons c t ih =>
    rw [bracesBehind?] at h
    rw [readText_cons]
    split_ifs at h with ho hc hz
    · subst ho
      exact ih (⟨d.nodes, trim d.text.reverse⟩ :: inner) h
        (by simp [step, openBlock, hd])
    · subst hc
      rcases inner with _ | ⟨f, inner⟩
      · exact absurd rfl hz
      · exact ih inner h (by simp [step, outer_closeBlock, hd])
    · exact ih inner h (by rw [outer_step_of_ne _ ho hc, hd])

end Draft

/-- Wherever a plain text is read between nodes, it adds nodes with a property. -/
structure Adds (P : List Node → Prop) (t : Text) : Prop where
  plain : Lexeme.Plain t
  last_ne : t.getLast? ≠ some '/'
  reads : ∀ outer nodes, ∃ ns, P ns ∧
    ({ outer, nodes } : Draft).readText t = { outer, nodes := ns.reverse ++ nodes }

/-- Between the braces of a block a plain text gives it a body with a property. -/
structure Fills (P : List Node → Prop) (t : Text) : Prop where
  plain : Lexeme.Plain t
  reads : ∀ outer, (({ outer } : Draft).readText t).outer = outer ∧
    P (({ outer } : Draft).readText t).flushed.reverse

theorem Text.Blank.getLast?_ne (hw : Blank w) (hc : isBlank c = false) : w.getLast? ≠ some c :=
  fun h => hw.ne_of_mem (List.mem_of_getLast? h) hc rfl

theorem Adds.nil : Adds (· = []) [] := ⟨.nil, by simp, fun _ _ => ⟨[], rfl, rfl⟩⟩

theorem Adds.imp (h : Adds P t) (hPQ : ∀ ns, P ns → Q ns) : Adds Q t := by
  refine ⟨h.plain, h.last_ne, fun outer nodes => ?_⟩
  obtain ⟨ns, hns, hd⟩ := h.reads outer nodes
  exact ⟨ns, hPQ ns hns, hd⟩

theorem Fills.imp (h : Fills P t) (hPQ : ∀ ns, P ns → Q ns) : Fills Q t :=
  ⟨h.plain, fun outer => ⟨(h.reads outer).1, hPQ _ (h.reads outer).2⟩⟩

theorem Adds.append (ht : Adds P t) (hu : Adds Q u) :
    Adds (fun ns => ∃ ms ms', P ms ∧ Q ms' ∧ ns = ms ++ ms') (t ++ u) := by
  refine ⟨ht.plain.append hu.plain (Or.inl ht.last_ne), ?_, fun outer nodes => ?_⟩
  · rcases eq_or_ne u [] with rfl | hne
    · rw [List.append_nil]
      exact ht.last_ne
    · rw [List.getLast?_append_of_ne_nil _ hne]
      exact hu.last_ne
  · obtain ⟨ms, hms, hd⟩ := ht.reads outer nodes
    obtain ⟨ms', hms', hd'⟩ := hu.reads outer (ms.reverse ++ nodes)
    refine ⟨ms ++ ms', ⟨ms, ms', hms, hms', rfl⟩, ?_⟩
    rw [Draft.readText_append, hd, hd', List.reverse_append, List.append_assoc]

theorem Adds.of_blank (hw : Blank w) : Adds (· = []) w := by
  refine ⟨(Segment.of_blank hw).plain, hw.getLast?_ne (by decide), fun outer nodes => ?_⟩
  refine ⟨[], rfl, ?_⟩
  rw [Draft.readText_segment (.of_blank hw), trimStart_eq_nil hw]
  rfl

theorem Adds.append_blank (ht : Adds P t) (hw : Blank w) : Adds P (t ++ w) := by
  refine (ht.append (.of_blank hw)).imp ?_
  rintro _ ⟨ms, _, hms, rfl, rfl⟩
  rwa [List.append_nil]

theorem Draft.flushed_segment (ht : Segment t) (hne : trim t ≠ []) (outer : List Frame)
    (nodes : List Node) :
    (({ outer, nodes } : Draft).readText t).flushed = .declaration (trim t) :: nodes := by
  rw [Draft.readText_segment ht, Draft.flushed]
  simp [trim_trimStart, hne]

theorem Adds.declaration (ht : Segment t) (hne : trim t ≠ []) :
    Adds (· = [.declaration (trim t)]) (t ++ [';']) := by
  refine ⟨ht.plain.append_cons .nil (by decide), by simp, fun outer nodes => ⟨_, rfl, ?_⟩⟩
  have hf := Draft.flushed_segment ht hne outer nodes
  rw [Draft.readText_append]
  rw [Draft.readText_segment ht] at hf ⊢
  simp [Draft.readText, Draft.read, Draft.step, Draft.closeDeclaration, hf]

theorem Adds.fills (h : Adds P t) : Fills P t := by
  refine ⟨h.plain, fun outer => ?_⟩
  obtain ⟨ns, hns, hd⟩ := h.reads outer []
  rw [hd]
  exact ⟨rfl, by simpa [Draft.flushed] using hns⟩

/-- Any plain text with balanced braces is a body. -/
theorem fills_of_bracesBehind? (hp : Lexeme.Plain t) (h : bracesBehind? 0 t = some 0) :
    Fills (fun _ => True) t := by
  refine ⟨hp, fun outer => ?_⟩
  obtain ⟨inner, hinner, hd⟩ := Draft.outer_readText (d := { outer }) [] outer h rfl
  rw [List.length_eq_zero_iff.mp hinner] at hd
  exact ⟨hd, trivial⟩

/-- The last declaration of a body needs no semicolon. -/
theorem Adds.append_segment (ht : Adds P t) (hu : Segment u) (hne : trim u ≠ []) :
    Fills (fun ns => ∃ ms, P ms ∧ ns = ms ++ [.declaration (trim u)]) (t ++ u) := by
  refine ⟨ht.plain.append hu.plain (Or.inl ht.last_ne), fun outer => ?_⟩
  obtain ⟨ms, hms, hd⟩ := ht.reads outer []
  rw [Draft.readText_append, hd]
  constructor
  · rw [Draft.readText_segment hu]
  · exact ⟨ms, hms, by simp [Draft.flushed_segment hu hne]⟩

theorem Adds.block (ht : Segment t) (hu : Fills P u) :
    Adds (fun ns => ∃ body, P body ∧ ns = [.block (trim t) body]) (t ++ '{' :: u ++ ['}']) := by
  refine ⟨?_, ?_, fun outer nodes => ?_⟩
  · exact (ht.plain.append_cons hu.plain (by decide)).append_cons .nil (by decide)
  · rw [List.getLast?_append_of_ne_nil _ (List.cons_ne_nil _ _)]
    simp
  · obtain ⟨houter, hbody⟩ := hu.reads (⟨nodes, trim t⟩ :: outer)
    refine ⟨_, ⟨_, hbody, rfl⟩, ?_⟩
    rw [List.append_cons t, Draft.readText_append, Draft.readText_append, Draft.readText_open ht]
    generalize ({ outer := ⟨nodes, trim t⟩ :: outer } : Draft).readText u = d at houter ⊢
    simp [Draft.readText, Draft.read, Draft.step, Draft.closeBlock, houter]

/-- A stylesheet that adds nodes consists of these. -/
theorem Adds.ofText (h : Adds P t) : P (Node.ofText t) := by
  obtain ⟨ns, hns, hd⟩ := h.reads [] []
  rw [Node.ofText_eq_finish, h.plain.scan_eq, ← Draft.readText, hd]
  simpa [Draft.finish, Draft.flushed] using hns

end Restyle
