import Restyle.Proofs.Stylesheet.Lexeme
import Restyle.Proofs.Text.Blank

/-! # Property names in a stylesheet

A statement of a stylesheet ends at a semicolon or a brace. If it ends with a
block, all of it is a selector or a prelude; else what stands before its first
colon is a property name, white space before the colon included. Quoted texts
and comments belong to no name.
-/

namespace Restyle

open Text Lexeme

/-- The parts of a statement: nothing yet, what may be a property name, and the rest. -/
inductive Cursor.Place where
  | start
  | name
  | rest
  deriving DecidableEq, Repr

/-- The place in a statement and the depth of open parentheses. -/
structure Cursor where
  place : Cursor.Place := .start
  depth : Nat := 0
  deriving DecidableEq, Repr

namespace Cursor

def ends (depth : Nat) (c : Char) : Bool :=
  c = '{' || c = '}' || c = ';' && depth = 0

def nest (depth : Nat) (c : Char) : Nat :=
  if c = '(' then depth + 1 else if c = ')' then depth - 1 else depth

def goOn : Place → Char → Place
  | .start, c => if isBlank c then .start else if c = ':' || c = '@' then .rest else .name
  | .name, c => if c = ':' then .rest else .name
  | .rest, _ => .rest

def step (k : Cursor) : Lexeme → Cursor
  | .plain c => if ends k.depth c then {} else ⟨goOn k.place c, nest k.depth c⟩
  | .quoted _ _ => { k with place := .rest }
  | .comment _ _ => k

/-- Whether a statement goes on to a block. -/
def opensBlock (depth : Nat) : List Lexeme → Bool
  | [] => false
  | .plain c :: ls => if ends depth c then c = '{' else opensBlock (nest depth c) ls
  | _ :: ls => opensBlock depth ls

def declares (depth : Nat) : List Lexeme → Bool
  | [] => false
  | .plain c :: ls =>
    if ends depth c then false
    else if c = ':' then !opensBlock depth ls
    else declares (nest depth c) ls
  | .quoted _ _ :: _ => false
  | .comment _ _ :: ls => declares depth ls

/-- Whether a lexeme is a character of a property name, given what follows. -/
def inName (k : Cursor) : Lexeme → List Lexeme → Bool
  | .plain c, ls => (k.step (.plain c)).place = .name && declares (k.step (.plain c)).depth ls
  | _, _ => false

/-- The text of some lexemes without the property names. -/
def withoutNames (k : Cursor) : List Lexeme → Text
  | [] => []
  | l :: ls => (if k.inName l ls then [] else l.text) ++ (k.step l).withoutNames ls

def Inside (k : Cursor) (ls : List Lexeme) (before : Text) : Prop :=
  ∃ ls' l ms, ls = ls' ++ l :: ms ∧ textOf ls' = before ∧ (ls'.foldl step k).inName l ms = true

end Cursor

namespace Declaration

/-- A stylesheet without the property names of its declarations. -/
def withoutNames (css : Text) : Text :=
  ({} : Cursor).withoutNames (scan css)

/-- Whether a property name stands behind a part of a stylesheet. -/
def StandsInName (before after : Text) : Prop :=
  ({} : Cursor).Inside (scan (before ++ after)) before

end Declaration

namespace Cursor

variable {k : Cursor} {l : Lexeme} {ls ms : List Lexeme} {t w before : Text} {c : Char}

theorem inside_append (hl : l.text ≠ []) (k : Cursor) (ls : List Lexeme) (before : Text) :
    k.Inside (l :: ls) (l.text ++ before) ↔ (k.step l).Inside ls before := by
  constructor
  · rintro ⟨_ | ⟨l', ls'⟩, m, ms, he, htext, hin⟩
    · exact absurd (List.append_eq_nil_iff.mp htext.symm).1 hl
    · obtain ⟨rfl, rfl⟩ := List.cons.inj he
      exact ⟨ls', m, ms, rfl, List.append_cancel_left htext, hin⟩
  · rintro ⟨ls', m, ms, rfl, rfl, hin⟩
    exact ⟨l :: ls', m, ms, rfl, rfl, hin⟩

theorem inside_nil (hl : l.text ≠ []) (k : Cursor) (ls : List Lexeme) :
    k.Inside (l :: ls) [] ↔ k.inName l ls = true := by
  constructor
  · rintro ⟨_ | ⟨l', ls'⟩, m, ms, he, htext, hin⟩
    · obtain ⟨rfl, rfl⟩ := List.cons.inj he
      exact hin
    · obtain ⟨rfl, rfl⟩ := List.cons.inj he
      exact absurd (List.append_eq_nil_iff.mp htext).1 hl
  · exact fun h => ⟨[], l, ls, rfl, rfl, h⟩

theorem not_inside (hbefore : before ≠ []) (hl : before.length < l.text.length) :
    ¬ k.Inside (l :: ls) before := by
  rintro ⟨_ | ⟨l', ls'⟩, m, ms, he, rfl, -⟩
  · exact hbefore rfl
  · obtain ⟨rfl, rfl⟩ := List.cons.inj he
    rw [textOf_cons, List.length_append] at hl
    omega

/-- Characters that neither end a statement nor nest nor separate a name from its value. -/
def Dull (t : Text) : Prop :=
  ∀ c ∈ t, c ∉ [':', ';', '{', '}', '(', ')', '@', '/', '*', '"', '\'', '\\']

namespace Dull

theorem tail (h : Dull (c :: t)) : Dull t :=
  fun d hd => h d (List.mem_cons_of_mem c hd)

theorem ends_eq (h : Dull (c :: t)) (depth : Nat) : ends depth c = false := by
  have hc := h c List.mem_cons_self
  simp only [List.mem_cons, not_or] at hc
  simp [ends, hc]

theorem nest_eq (h : Dull (c :: t)) (depth : Nat) : nest depth c = depth := by
  have hc := h c List.mem_cons_self
  simp only [List.mem_cons, not_or] at hc
  simp [nest, hc]

theorem ne_colon (h : Dull (c :: t)) : c ≠ ':' := by
  have hc := h c List.mem_cons_self
  simp only [List.mem_cons, not_or] at hc
  exact hc.1

theorem opensBlock_name (h : Dull t) (depth : Nat) (ls : List Lexeme) :
    opensBlock depth ((t ++ [':']).map plain ++ ls) = opensBlock depth ls := by
  induction t with
  | nil => rfl
  | cons c t ih =>
    rw [List.cons_append, List.map_cons, List.cons_append, opensBlock, h.ends_eq, h.nest_eq,
      ih h.tail]
    rfl

theorem declares_name (h : Dull t) (depth : Nat) (ls : List Lexeme) :
    declares depth ((t ++ [':']).map plain ++ ls) = !opensBlock depth ls := by
  induction t with
  | nil => rfl
  | cons c t ih =>
    rw [List.cons_append, List.map_cons, List.cons_append, declares, h.ends_eq, h.nest_eq,
      ih h.tail, if_neg h.ne_colon]
    rfl

theorem step_eq (h : Dull (c :: t)) (k : Cursor) :
    k.step (plain c) = ⟨goOn k.place c, k.depth⟩ := by
  rw [step, h.ends_eq, h.nest_eq]
  rfl

end Dull

theorem step_colon (k : Cursor) : k.step (plain ':') = ⟨.rest, k.depth⟩ := by
  have hplace : goOn k.place ':' = .rest := by
    cases k.place <;> rfl
  rw [step, hplace]
  rfl

theorem withoutNames_colon (k : Cursor) (ls : List Lexeme) :
    k.withoutNames (plain ':' :: ls) = ':' :: withoutNames ⟨.rest, k.depth⟩ ls := by
  rw [withoutNames, inName, step_colon]
  rfl

def names (k : Cursor) (ls : List Lexeme) : Bool :=
  k.place != .rest && !opensBlock k.depth ls

def begun (k : Cursor) : Cursor :=
  { k with place := if k.place = .start then .name else k.place }

theorem names_begun (k : Cursor) (ls : List Lexeme) :
    (k.begun.place = .name && !opensBlock k.depth ls) = k.names ls := by
  unfold names begun
  cases k.place <;> rfl

theorem step_begun (h : Dull (c :: t)) (k : Cursor) : k.begun.step (plain c) = k.begun := by
  have hplace : goOn k.begun.place c = k.begun.place := by
    unfold begun
    cases k.place with
    | start => exact if_neg h.ne_colon
    | name => exact if_neg h.ne_colon
    | rest => rfl
  rw [h.step_eq, hplace]

theorem step_visible (h : Dull (c :: t)) (hc : isBlank c = false) : k.step (plain c) = k.begun := by
  have hne : c ≠ ':' ∧ c ≠ '@' := by
    have hall := h c List.mem_cons_self
    simp only [List.mem_cons, not_or] at hall
    exact ⟨hall.1, hall.2.2.2.2.2.2.1⟩
  rw [h.step_eq, begun]
  cases k.place <;> simp [goOn, hc, hne]

theorem inName_of_step (h : Dull t) (hstep : k.step (plain c) = k.begun) (ls : List Lexeme) :
    k.inName (plain c) ((t ++ [':']).map plain ++ ls) = k.names ls := by
  have hdepth : k.begun.depth = k.depth := rfl
  rw [inName, hstep, hdepth, h.declares_name, names_begun]

theorem withoutNames_begun (h : Dull t) (k : Cursor) (ls : List Lexeme) :
    k.begun.withoutNames ((t ++ [':']).map plain ++ ls) =
      (if k.names ls then [] else t) ++ ':' :: withoutNames ⟨.rest, k.depth⟩ ls := by
  induction t with
  | nil =>
    rw [ite_self]
    exact withoutNames_colon k.begun ls
  | cons c t ih =>
    have hbegun : k.begun.begun = k.begun := by
      unfold begun
      cases k.place <;> rfl
    have hstep : k.begun.step (plain c) = k.begun.begun := by rw [step_begun h, hbegun]
    have hnames : k.begun.names ls = k.names ls := by
      unfold names begun
      cases k.place <;> rfl
    rw [List.cons_append, List.map_cons, List.cons_append, withoutNames,
      inName_of_step h.tail hstep, step_begun h, ih h.tail, hnames]
    cases k.names ls <;> rfl

/-- A name that starts with a visible character is left out as a whole, up to its colon. -/
theorem withoutNames_name (h : Dull t) (ht : ∃ c u, t = c :: u ∧ isBlank c = false) (k : Cursor)
    (ls : List Lexeme) : k.withoutNames ((t ++ [':']).map plain ++ ls) =
      (if k.names ls then [] else t) ++ ':' :: withoutNames ⟨.rest, k.depth⟩ ls := by
  obtain ⟨c, t, rfl, hc⟩ := ht
  rw [List.cons_append, List.map_cons, List.cons_append, withoutNames,
    inName_of_step h.tail (step_visible h hc), step_visible h hc, withoutNames_begun h.tail]
  cases k.names ls <;> rfl

theorem inside_name_nil (h : Dull t) (ht : ∃ c u, t = c :: u ∧ isBlank c = false) (k : Cursor)
    (ls : List Lexeme) : k.Inside ((t ++ [':']).map plain ++ ls) [] ↔ k.names ls = true := by
  obtain ⟨c, t, rfl, hc⟩ := ht
  rw [← inName_of_step h.tail (step_visible h hc)]
  exact inside_nil (l := plain c) (List.cons_ne_nil c []) k _

theorem inside_name_append (h : Dull t) (k : Cursor) (ls : List Lexeme) :
    k.Inside ((t ++ [':']).map plain ++ ls) (t ++ [':'] ++ before) ↔
      Inside ⟨.rest, k.depth⟩ ls before := by
  induction t generalizing k with
  | nil =>
    rw [← step_colon k]
    exact inside_append (l := plain ':') (List.cons_ne_nil ':' []) k ls before
  | cons c t ih =>
    have hin := inside_append (l := plain c) (List.cons_ne_nil c []) k
      ((t ++ [':']).map plain ++ ls) (t ++ [':'] ++ before)
    rw [ih h.tail, h.step_eq] at hin
    exact hin

end Cursor

end Restyle
