import Restyle.Proofs.Stylesheet.Chunk
import Restyle.Proofs.Stylesheet.Margin

/-! # Chunks character by character

Whether a declaration or a selector is read as it is written shows from one
character to the next. Most characters leave a reader as calm as white space
does, so what a chunk is does not depend on how it is spaced.
-/

namespace Restyle

open Text Lexeme

inductive Pointer.Mode where
  | plain
  | slash
  | quoted (double : Bool)
  | shielded (double : Bool)

/-- Whether a quote is open, and which one, whether the last character may begin a comment or
shields the next one, and the depth of open parentheses. -/
structure Pointer where
  mode : Pointer.Mode := .plain
  depth : Nat := 0

namespace Pointer

def quoteOf (double : Bool) : Char :=
  if double then '"' else '\''

def outside? (depth : Nat) (c : Char) : Option Pointer :=
  if c = '"' then some ⟨.quoted true, depth⟩
  else if c = '\'' then some ⟨.quoted false, depth⟩
  else if c = '/' then some ⟨.slash, depth⟩
  else if c = '(' then some ⟨.plain, depth + 1⟩
  else if c = ')' then some ⟨.plain, depth - 1⟩
  else if c = '{' ∨ c = '}' ∨ c = ';' ∧ depth = 0 then none
  else some ⟨.plain, depth⟩

def step? : Pointer → Char → Option Pointer
  | ⟨.plain, depth⟩, c => outside? depth c
  | ⟨.slash, depth⟩, c => if c = '*' then none else outside? depth c
  | ⟨.quoted double, depth⟩, c =>
    some ⟨if c = '\\' then .shielded double else if c = quoteOf double then .plain
      else .quoted double, depth⟩
  | ⟨.shielded double, depth⟩, _ => some ⟨.quoted double, depth⟩

/-- Read a text that has no comment, no brace and no semicolon outside parentheses. -/
def run? (s : Pointer) : Text → Option Pointer
  | [] => some s
  | c :: t => (s.step? c).bind (run? · t)

def Outside (s : Pointer) : Prop :=
  s.mode = .plain ∨ s.mode = .slash

/-- A text behind which no quote is open and `depth` parentheses are. -/
def Leaves (s : Pointer) (t : Text) (depth : Nat) : Prop :=
  ∃ s', s.run? t = some s' ∧ s'.Outside ∧ s'.depth = depth

variable {s s' : Pointer} {t u w : Text} {c : Char} {depth n : Nat} {double : Bool}

theorem run?_append (s : Pointer) (t u : Text) : s.run? (t ++ u) = (s.run? t).bind (run? · u) := by
  induction t generalizing s with
  | nil => rfl
  | cons c t ih =>
    rw [List.cons_append, run?, run?]
    cases s.step? c with
    | none => rfl
    | some s => exact ih s

theorem quoteOf_ne (double : Bool) : quoteOf double ≠ '\\' := by
  cases double <;> decide

/-- Behind a slash the text goes on as if there were none, unless it opens a comment. -/
theorem run?_slash (h : t.head? ≠ some '*') (hne : t ≠ []) (depth : Nat) :
    run? ⟨.slash, depth⟩ t = run? ⟨.plain, depth⟩ t := by
  obtain ⟨c, t, rfl⟩ := List.exists_cons_of_ne_nil hne
  have hc : c ≠ '*' := by
    rintro rfl
    exact h rfl
  have hstep : step? ⟨.slash, depth⟩ c = step? ⟨.plain, depth⟩ c := if_neg hc
  rw [run?, run?, hstep]

theorem run?_scanQuoted (double : Bool) (seen t : Text) (depth : Nat) :
    ∃ body closed rest, t = body ++ rest ∧
      scanQuoted (quoteOf double) seen t = quoted (seen.reverse ++ body) closed :: scan rest ∧
      (closed = true → run? ⟨.quoted double, depth⟩ body = some ⟨.plain, depth⟩) ∧
      (closed = false → rest = [] ∧
        ∃ s, run? ⟨.quoted double, depth⟩ body = some s ∧ ¬ s.Outside) := by
  induction t using shielded_induction generalizing seen with
  | nil => exact ⟨[], false, [], rfl, by simp [scanQuoted, scan], by simp, fun _ =>
      ⟨rfl, _, rfl, by simp [Outside]⟩⟩
  | shield c t ih =>
    obtain ⟨body, closed, rest, rfl, hscan, htrue, hfalse⟩ := ih (c :: '\\' :: seen)
    refine ⟨'\\' :: c :: body, closed, rest, rfl, ?_, htrue, hfalse⟩
    rw [scanQuoted_shield, hscan]
    simp
  | char c t hc ih =>
    by_cases hq : c = quoteOf double
    · subst hq
      refine ⟨[quoteOf double], true, t, rfl, ?_, fun _ => ?_, by simp⟩
      · rw [scanQuoted_end (quoteOf_ne double)]
        simp
      · simp [run?, step?, quoteOf_ne]
    · by_cases hb : c = '\\'
      · obtain rfl := hc hb
        subst hb
        refine ⟨['\\'], false, [], rfl, ?_, by simp, fun _ => ⟨rfl, _, rfl, by simp [Outside]⟩⟩
        rw [scanQuoted_char hq fun _ => rfl, scanQuoted]
        simp [scan]
      · obtain ⟨body, closed, rest, rfl, hscan, htrue, hfalse⟩ := ih (c :: seen)
        have hstep : step? ⟨.quoted double, depth⟩ c = some ⟨.quoted double, depth⟩ := by
          simp [step?, hb, hq]
        refine ⟨c :: body, closed, rest, rfl, ?_, ?_, ?_⟩
        · rw [scanQuoted_char hq (absurd · hb), hscan]
          simp
        · intro h
          rw [run?, hstep]
          exact htrue h
        · intro h
          rw [run?, hstep]
          exact hfalse h

theorem leaves_slash (h : t.head? ≠ some '*') :
    Leaves ⟨.slash, depth⟩ t n ↔ Leaves ⟨.plain, depth⟩ t n := by
  rcases eq_or_ne t [] with rfl | hne
  · constructor
    · rintro ⟨s, hs, -, rfl⟩
      obtain rfl := Option.some.inj hs
      exact ⟨_, rfl, Or.inl rfl, rfl⟩
    · rintro ⟨s, hs, -, rfl⟩
      obtain rfl := Option.some.inj hs
      exact ⟨_, rfl, Or.inr rfl, rfl⟩
  · rw [Leaves, run?_slash h hne, Leaves]

theorem leaves_append (h : s.run? t = some s') : Leaves s (t ++ u) n ↔ Leaves s' u n := by
  rw [Leaves, run?_append, h]
  rfl

theorem leaves_cons (h : s.step? c = some s') : Leaves s (c :: t) n ↔ Leaves s' t n := by
  rw [Leaves, run?, h]
  rfl

theorem not_leaves_cons (h : s.step? c = none) : ¬ Leaves s (c :: t) n := by
  rintro ⟨s', hs, -⟩
  rw [run?, h] at hs
  exact Option.some_ne_none s' hs.symm

theorem not_leaves (h : s.run? t = none) : ¬ Leaves s (t ++ u) n := by
  rintro ⟨s', hs, -⟩
  rw [run?_append, h] at hs
  exact Option.some_ne_none s' hs.symm

/-- A quoted text that something closes is passed over; one that nothing closes stays open. -/
theorem leaves_quoted {closed : Bool} (h : (quoted t closed).Sound) (depth : Nat) :
    if closed then run? ⟨.plain, depth⟩ t = some ⟨.plain, depth⟩
    else ∃ s, run? ⟨.plain, depth⟩ t = some s ∧ ¬ s.Outside := by
  obtain ⟨q, t, rfl⟩ := List.exists_cons_of_ne_nil h.text_ne_nil
  have hq := h.isQuote
  obtain ⟨double, rfl⟩ : ∃ double, q = quoteOf double := by
    rcases hq with rfl | rfl
    · exact ⟨true, rfl⟩
    · exact ⟨false, rfl⟩
  have hstep : step? ⟨.plain, depth⟩ (quoteOf double) = some ⟨.quoted double, depth⟩ := by
    cases double <;> rfl
  obtain ⟨body, b, rest, rfl, hscan, htrue, hfalse⟩ :=
    run?_scanQuoted double [quoteOf double] t depth
  rw [Sound, text, Lexeme.scan_quote hq, hscan, List.cons.injEq, quoted.injEq] at h
  obtain ⟨⟨-, rfl⟩, hrest⟩ := h
  obtain rfl := scan_eq_nil.mp hrest
  rw [List.append_nil, run?, hstep]
  cases b with
  | true => exact htrue rfl
  | false => exact (hfalse rfl).2

theorem closed_getLast?_cons {l : Lexeme} (hl : l.closed = true) (ls : List Lexeme) :
    (∀ m ∈ (l :: ls).getLast?, m.closed = true) ↔ ∀ m ∈ ls.getLast?, m.closed = true := by
  rcases ls with _ | ⟨m, ls⟩
  · simp [hl]
  · rw [List.getLast?_cons_cons]

theorem leaves_iff (t : Text) : Leaves ⟨.plain, depth⟩ t n ↔
    depthBehind? depth (scan t) = some n ∧ ∀ l ∈ (scan t).getLast?, l.closed = true := by
  induction t using scan_induction generalizing depth with
  | nil =>
    simp [Leaves, run?, scan, depthBehind?, Outside]
  | cons l rest hl hrest ih =>
    rw [hl rest hrest]
    cases l with
    | comment t closed =>
      obtain ⟨u, rfl⟩ := hl.sound.isComment
      have hnone : run? ⟨.plain, depth⟩ ('/' :: '*' :: u) = none := rfl
      exact iff_of_false (not_leaves hnone) fun h => Option.some_ne_none n h.1.symm
    | quoted t closed =>
      have hquoted := leaves_quoted hl.sound depth
      cases closed with
      | true =>
        rw [closed_getLast?_cons rfl, depthBehind?, ← ih]
        exact leaves_append hquoted
      | false =>
        obtain ⟨s, hs, hout⟩ := hquoted
        have hnil : rest = [] := by
          by_contra hne
          exact absurd (apart_singleton.mp (hrest hne)).1 Bool.false_ne_true
        subst hnil
        constructor
        · intro h
          rw [text, leaves_append hs] at h
          obtain ⟨s', hs', hout', -⟩ := h
          obtain rfl := Option.some.inj hs'
          exact absurd hout' hout
        · rintro ⟨-, hclosed⟩
          rw [scan] at hclosed
          exact absurd (hclosed _ rfl) Bool.false_ne_true
    | plain c =>
      rw [closed_getLast?_cons rfl]
      obtain ⟨hdouble, hsingle⟩ := not_or.mp hl.sound.not_quote
      by_cases hslash : c = '/'
      · subst hslash
        have hhead : rest.head? ≠ some '*' := by
          rcases eq_or_ne rest [] with rfl | hne
          · exact (Option.some_ne_none '*').symm
          · exact (apart_singleton.mp (hrest hne)).2 rfl
        have hstep : run? ⟨.plain, depth⟩ ['/'] = some ⟨.slash, depth⟩ := rfl
        exact (leaves_append hstep).trans ((leaves_slash hhead).trans ih)
      · have hstep : step? ⟨.plain, depth⟩ c =
            if c = '(' then some ⟨.plain, depth + 1⟩
            else if c = ')' then some ⟨.plain, depth - 1⟩
            else if c = '{' ∨ c = '}' ∨ c = ';' ∧ depth = 0 then none
            else some ⟨.plain, depth⟩ := by
          simp only [step?, outside?, hdouble, hsingle, hslash, if_false]
        rw [depthBehind?]
        split_ifs at hstep ⊢
        · exact (leaves_cons hstep).trans ih
        · exact (leaves_cons hstep).trans ih
        · exact iff_of_false (not_leaves_cons hstep) fun h => absurd h.1 (by simp)
        · exact (leaves_cons hstep).trans ih

end Pointer

/-- A chunk is visible at both ends, and reading it leaves nothing open. -/
theorem chunk_iff {t : Text} : Chunk t ↔ Pointer.Leaves {} t 0 ∧ Trimmed t ∧ t ≠ [] := by
  constructor
  · intro h
    exact ⟨(Pointer.leaves_iff t).mpr ⟨h.balanced, h.closed⟩, h.trimmed, h.ne_nil⟩
  · rintro ⟨h, htrim, hne⟩
    obtain ⟨hbalanced, hclosed⟩ := (Pointer.leaves_iff t).mp h
    exact ⟨hbalanced, hclosed, htrim, hne⟩

namespace Pointer

variable {s s' : Pointer} {t u w : Text} {c : Char} {depth n : Nat}

/-- Outside of quotes, or inside them, with nothing special in front. -/
def calm : Pointer → Pointer
  | ⟨.plain, depth⟩ => ⟨.plain, depth⟩
  | ⟨.slash, depth⟩ => ⟨.plain, depth⟩
  | ⟨.quoted double, depth⟩ => ⟨.quoted double, depth⟩
  | ⟨.shielded double, depth⟩ => ⟨.quoted double, depth⟩

def IsDull (c : Char) : Prop :=
  c ∉ ['"', '\'', '\\', '/', '*', '(', ')', '{', '}', ';']

instance (c : Char) : Decidable (IsDull c) :=
  inferInstanceAs (Decidable (¬ _))

theorem step?_dull (hc : IsDull c) (s : Pointer) : s.step? c = some s.calm := by
  simp only [IsDull, List.mem_cons, List.not_mem_nil, or_false, not_or] at hc
  obtain ⟨m, depth⟩ := s
  cases m with
  | plain => simp [step?, outside?, hc, calm]
  | slash => simp [step?, outside?, hc, calm]
  | quoted double => cases double <;> simp [step?, quoteOf, hc, calm]
  | shielded double => rfl

theorem isDull_of_blank (hc : isBlank c = true) : IsDull c := by
  have hw : Blank [c] := blank_cons.mpr ⟨hc, Blank.nil⟩
  exact hw.notMem List.mem_cons_self (by decide)

@[simp] theorem calm_calm (s : Pointer) : s.calm.calm = s.calm := by
  obtain ⟨m, depth⟩ := s
  cases m <;> rfl

def Neutral (t : Text) : Prop :=
  ∀ s : Pointer, s.run? t = some s.calm

theorem neutral_of_dull (hne : w ≠ []) (hw : ∀ c ∈ w, IsDull c) : Neutral w := by
  intro s
  induction w generalizing s with
  | nil => exact absurd rfl hne
  | cons c w ih =>
    obtain ⟨hc, hw⟩ := List.forall_mem_cons.mp hw
    rw [run?, step?_dull hc, Option.bind_some]
    rcases eq_or_ne w [] with rfl | hne
    · rfl
    · rw [ih hne hw, calm_calm]

theorem neutral_of_blank (hne : w ≠ []) (hw : Blank w) : Neutral w :=
  neutral_of_dull hne fun c hc => isDull_of_blank (hw c hc)

theorem Neutral.append (ht : Neutral t) (hu : Neutral u) : Neutral (t ++ u) := by
  intro s
  rw [run?_append, ht s, Option.bind_some, hu, calm_calm]

theorem neutral_parenthesised (ht : ∀ s : Pointer, s.calm = s → s.run? t = some s) :
    Neutral ('(' :: t ++ [')']) := by
  intro s
  obtain ⟨s', hopen, hcalm, hclose⟩ : ∃ s', s.step? '(' = some s' ∧ s'.calm = s' ∧
      s'.step? ')' = some s.calm := by
    obtain ⟨m, depth⟩ := s
    cases m with
    | plain => exact ⟨⟨.plain, depth + 1⟩, rfl, rfl, rfl⟩
    | slash => exact ⟨⟨.plain, depth + 1⟩, rfl, rfl, rfl⟩
    | quoted double => cases double <;> exact ⟨_, rfl, rfl, rfl⟩
    | shielded double => cases double <;> exact ⟨_, rfl, rfl, rfl⟩
  rw [List.cons_append, run?, hopen, Option.bind_some, run?_append, ht s' hcalm, Option.bind_some,
    run?, hclose]
  rfl

theorem Neutral.run?_eq (ht : Neutral t) (hu : Neutral u) (s : Pointer) (w : Text) :
    s.run? (t ++ w) = s.run? (u ++ w) := by
  rw [run?_append, ht, run?_append, hu]

theorem outside_calm : s.calm.Outside ↔ s.Outside := by
  obtain ⟨m, depth⟩ := s
  cases m <;> simp [calm, Outside]

theorem depth_calm (s : Pointer) : s.calm.depth = s.depth := by
  obtain ⟨m, depth⟩ := s
  cases m <;> rfl

theorem leaves_dull_append (hs : s.calm = s) (hw : ∀ c ∈ w, IsDull c) (t : Text) (n : Nat) :
    Leaves s (w ++ t) n ↔ Leaves s t n := by
  rcases eq_or_ne w [] with rfl | hne
  · rfl
  · have hrun := neutral_of_dull hne hw s
    rw [hs] at hrun
    exact leaves_append hrun

theorem leaves_append_blank (t : Text) (hw : Blank w) : Leaves s (t ++ w) n ↔ Leaves s t n := by
  rcases eq_or_ne w [] with rfl | hne
  · rw [List.append_nil]
  · have hrun : ∀ s', run? s' w = some s'.calm := neutral_of_blank hne hw
    rw [Leaves, run?_append, Leaves]
    rcases s.run? t with _ | s'
    · rfl
    · simp only [Option.bind_some, hrun, Option.some.injEq, exists_eq_left', outside_calm, depth_calm]

theorem leaves_trim (t : Text) : Leaves {} (trim t) n ↔ Leaves {} t n := by
  obtain ⟨w, w', hw, hw', ht⟩ := exists_eq_trim t
  conv_rhs => rw [ht]
  rw [leaves_append_blank _ hw', leaves_dull_append rfl fun c hc => isDull_of_blank (hw c hc)]

theorem leaves_replace (hu : Neutral u) (hw : Neutral w) (t v : Text) :
    Leaves s (t ++ (u ++ v)) n ↔ Leaves s (t ++ (w ++ v)) n := by
  rw [Leaves, run?_append, Leaves, run?_append]
  simp only [hu.run?_eq hw]

theorem run?_congr (h : ∀ s : Pointer, s.run? t = s.run? u) (s : Pointer) (c : Char) :
    s.run? (c :: t) = s.run? (c :: u) := by
  rw [run?, run?]
  exact congrArg _ (funext h)

theorem run?_dropReturns (s : Pointer) (t : Text) : s.run? (dropReturns t) = s.run? t := by
  induction t using returns_induction generalizing s with
  | nil => rfl
  | feed t ih =>
    have hfeed : Neutral ['\n'] := neutral_of_blank (by simp) (by decide)
    have hreturn : Neutral ['\r', '\n'] := neutral_of_blank (by simp) (by decide)
    rw [dropReturns_feed, run?_congr ih]
    exact hfeed.run?_eq hreturn s t
  | char c t hc ih => rw [dropReturns_cons hc, run?_congr ih]

theorem run?_setIn (s : Pointer) (t : Text) : s.run? (setIn t) = s.run? t := by
  induction t generalizing s with
  | nil => rfl
  | cons c t ih =>
    rw [setIn]
    split_ifs with h
    · obtain ⟨rfl, -⟩ := h
      have hfeed : Neutral ['\n'] := neutral_of_blank (by simp) (by decide)
      have hmargin : Neutral ['\n', ' ', ' '] := neutral_of_blank (by simp) (by decide)
      rw [← run?_congr ih s '\n']
      exact hmargin.run?_eq hfeed s (setIn t)
    · exact run?_congr ih s c

theorem leaves_reline : Leaves s (reline t) n ↔ Leaves s t n := by
  rw [Leaves, reline, run?_setIn, run?_dropReturns, Leaves]

end Pointer

theorem Chunk.reline {t : Text} (h : Chunk t) : Chunk (reline t) := by
  obtain ⟨hleaves, htrim, hne⟩ := chunk_iff.mp h
  exact chunk_iff.mpr ⟨Pointer.leaves_reline.mpr hleaves, trimmed_reline htrim, reline_ne_nil hne⟩

end Restyle
