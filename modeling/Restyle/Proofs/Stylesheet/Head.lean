import Restyle.Proofs.Breakpoint.Condition
import Restyle.Proofs.Stylesheet.Pointer
import Restyle.Proofs.Stylesheet.Sheet
import Restyle.Proofs.Text.Cut

/-! # Heads and declarations as they are printed

A declaration is printed with one space between property and value, the head of
a conditional block with its keyword in lower case and its condition in range
form. What is printed is printed again as it is, also when its lines are set in.
-/

namespace Restyle

open Text

/-- A trimmed text that leaves nothing open, without two carriage returns at the end of a line. -/
structure Clean (t : Text) : Prop where
  leaves : Pointer.Leaves {} t 0
  trimmed : Trimmed t
  single : SingleReturns t

theorem Clean.chunk {t : Text} (h : Clean t) (hne : t ≠ []) : Chunk t :=
  chunk_iff.mpr ⟨h.leaves, h.trimmed, hne⟩

def Paired (t : Text) : Prop :=
  ∃ p v, t = p ++ ':' :: ' ' :: v ∧ ':' ∉ p ∧ (Trimmed p ∧ p ≠ []) ∧ Trimmed v ∧ v ≠ []

namespace Paired

variable {t line : Text}

theorem format (h : Paired t) : Node.formatDeclaration? t = some (t ++ ";") := by
  obtain ⟨p, v, rfl, hcolon, ⟨hp, hpne⟩, hv, hvne⟩ := h
  have hfree : ∀ d ∈ p, (d == ':') = false := fun d hd =>
    beq_false_of_ne (ne_of_mem_of_not_mem hd hcolon)
  have hcut : cut? (· == ':') (p ++ ':' :: ' ' :: v) = some (p, ' ' :: v) :=
    cut?_append hfree rfl _
  have htrim : trim (' ' :: v) = v := by
    rw [← List.singleton_append, trim_blank_append (by decide), hv.trim_eq]
  simp [Node.formatDeclaration?, hcut, htrim, hp.trim_eq, hpne, hvne]

theorem reline (h : Paired t) : Paired (reline t) := by
  obtain ⟨p, v, rfl, hcolon, ⟨hp, hpne⟩, hv, hvne⟩ := h
  refine ⟨Text.reline p, Text.reline v, ?_, notMem_reline (by decide) hcolon,
    ⟨trimmed_reline hp, reline_ne_nil hpne⟩, trimmed_reline hv, reline_ne_nil hvne⟩
  rw [reline_append hp.endsVisibly, reline_cons (by decide) (by decide),
    reline_cons (by decide) (by decide)]

end Paired

theorem Clean.leaves_pair {p v : Text} (h : Clean (p ++ ':' :: v)) :
    Pointer.Leaves {} (trim p ++ ([':', ' '] ++ trim v)) 0 := by
  obtain ⟨w, w', hw, hw', hp⟩ := exists_eq_trim p
  obtain ⟨x, x', hx, hx', hv⟩ := exists_eq_trim v
  have hspelled : p ++ ':' :: v = w ++ (trim p ++ ((w' ++ ':' :: x) ++ trim v) ++ x') := by
    conv_lhs => rw [hp, hv]
    simp
  have hgap : Pointer.Neutral (w' ++ ':' :: x) := by
    refine Pointer.neutral_of_dull (by simp) fun d hd => ?_
    rcases List.mem_append.mp hd with hd | hd
    · exact Pointer.isDull_of_blank (hw' d hd)
    · rcases List.mem_cons.mp hd with rfl | hd
      · decide
      · exact Pointer.isDull_of_blank (hx d hd)
  have hcolon : Pointer.Neutral [':', ' '] := Pointer.neutral_of_dull (by simp) (by decide)
  have hread := h.leaves
  rw [hspelled, Pointer.leaves_dull_append rfl fun d hd => Pointer.isDull_of_blank (hw d hd),
    Pointer.leaves_append_blank _ hx'] at hread
  exact (Pointer.leaves_replace hgap hcolon _ _).mp hread

theorem exists_paired {t line : Text} (ht : Clean t) (h : Node.formatDeclaration? t = some line) :
    ∃ d, line = d ++ ";" ∧ Paired d ∧ Chunk d ∧ SingleReturns d := by
  rw [Node.formatDeclaration?] at h
  rcases hcut : cut? (· == ':') t with _ | ⟨p, v⟩
  · rw [hcut] at h
    exact absurd h (by simp)
  · rw [hcut] at h
    dsimp only at h
    split_ifs at h with hempty
    rw [Bool.or_eq_true, List.isEmpty_iff, List.isEmpty_iff, not_or] at hempty
    obtain rfl := Option.some.inj h
    obtain ⟨c, rfl, hc, hp⟩ := cut?_eq_some hcut
    obtain rfl : c = ':' := by simpa using hc
    have hcolon : ':' ∉ trim p := by
      obtain ⟨w, w', -, -, hpw⟩ := exists_eq_trim p
      intro hmem
      have hin : ':' ∈ p := by
        rw [hpw]
        simp [hmem]
      simpa using hp ':' hin
    have hsingle : SingleReturns p ∧ SingleReturns v :=
      ⟨ht.single.mono (List.prefix_append p _).isInfix,
        (ht.single.mono (List.suffix_append p _).isInfix).tail⟩
    refine ⟨trim p ++ ':' :: ' ' :: trim v, by simp,
      ⟨trim p, trim v, rfl, hcolon, ⟨trimmed_trim p, hempty.1⟩, trimmed_trim v, hempty.2⟩, ?_, ?_⟩
    · refine chunk_iff.mpr ⟨ht.leaves_pair, ?_, by simp⟩
      have htrimmed := (trimmed_trim p).append (trimmed_trim v) hempty.1 hempty.2 [':', ' ']
      simpa using htrimmed
    · exact (singleReturns_trim hsingle.1).append_cons
        ((singleReturns_trim hsingle.2).cons (by decide)) (by decide) (by decide)

namespace Pointer

open Condition

variable {t u inner size relation number : Text} {c : Char}

theorem isDull_of_isInner (h : isInner c = true) : IsDull c := by
  have hspecial : ∀ d ∈ ['"', '\'', '\\', '/', '*', '(', ')', '{', '}', ';'], isInner d = false := by
    decide +kernel
  intro hmem
  exact Bool.false_ne_true ((hspecial c hmem).symm.trans h)

theorem neutral_comparison (h : Writable (size ++ relation ++ number)) :
    Neutral (comparison size relation number) := by
  have hdull : ∀ c ∈ size ++ relation ++ number, IsDull c := fun c hc => isDull_of_isInner (h c hc).1
  rw [List.forall_mem_append, List.forall_mem_append] at hdull
  obtain ⟨⟨hsize, hrelation⟩, hnumber⟩ := hdull
  have hspace : ∀ c ∈ (" " : Text), IsDull c := by decide
  have hmark : ∀ c ∈ (" to-rem" : Text), IsDull c := by decide
  have hunit : ∀ c ∈ ("px" : Text), IsDull c := by decide
  have hfront : Neutral (size ++ " " ++ relation ++ " to-rem") := by
    refine neutral_of_dull (by simp) ?_
    simp only [List.forall_mem_append]
    exact ⟨⟨⟨hsize, hspace⟩, hrelation⟩, hmark⟩
  have hpixels : Neutral ('(' :: (number ++ "px") ++ [')']) := by
    refine neutral_parenthesised fun s hs => ?_
    have hrun := neutral_of_dull (by simp) (List.forall_mem_append.mpr ⟨hnumber, hunit⟩) s
    rwa [hs] at hrun
  have hspelled : comparison size relation number =
      '(' :: (size ++ " " ++ relation ++ " to-rem" ++ ('(' :: (number ++ "px") ++ [')'])) ++ [')'] := by
    simp [comparison]
  rw [hspelled]
  refine neutral_parenthesised fun s hs => ?_
  have hrun := hfront.append hpixels s
  rwa [hs] at hrun

theorem neutral_inner (h : ∀ c ∈ inner, isInner c = true) : Neutral ('(' :: inner ++ [')']) := by
  refine neutral_parenthesised fun s hs => ?_
  rcases eq_or_ne inner [] with rfl | hne
  · rfl
  · have hrun := neutral_of_dull hne (fun c hc => isDull_of_isInner (h c hc)) s
    rwa [hs] at hrun

/-- Writing comparisons in range form changes nothing of how a text is read. -/
theorem run?_rewritten (h : Rewritten t u) (s : Pointer) : s.run? u = s.run? t := by
  induction h generalizing s with
  | nil => rfl
  | keep c _ ih => exact run?_congr ih s c
  | @write inner size relation number t u hinner hnew _ ih =>
    have hold : '(' :: (inner ++ ')' :: t) = ('(' :: inner ++ [')']) ++ t := by simp
    rw [hold, (neutral_inner hinner).run?_eq (neutral_comparison hnew), run?_append, run?_append]
    simp only [ih]

end Pointer

namespace Condition

variable {t u : Text}

theorem singleReturns_rewritten (h : Rewritten t u) (before : Text)
    (hs : SingleReturns (before ++ t)) : SingleReturns (before ++ u) := by
  induction h generalizing before with
  | nil => exact hs
  | keep c _ ih =>
    have hnext := ih (before ++ [c]) (by simpa using hs)
    simpa using hnext
  | @write inner size relation number t u hinner hnew _ ih =>
    have hrest : SingleReturns t := by
      refine hs.mono ⟨before ++ '(' :: (inner ++ [')']), [], by simp⟩
    have hfront : SingleReturns before := hs.mono (List.prefix_append before _).isInfix
    have hvisible : '\r' ∉ size ++ " " ++ relation ++ " to-rem(" ++ number ++ "px)" := by
      have hwritten : '\r' ∉ size ++ relation ++ number := fun hmem =>
        absurd (hnew _ hmem).2 (by decide)
      simpa using hwritten
    have hspelled : before ++ (comparison size relation number ++ u) =
        before ++ '(' :: ((size ++ " " ++ relation ++ " to-rem(" ++ number ++ "px)") ++ ')' :: u) := by
      simp [comparison]
    rw [hspelled]
    exact hfront.append_cons ((SingleReturns.of_notMem hvisible).append_cons (ih [] hrest)
      (by decide) (by decide)) (by decide) (by decide)

end Condition

open Condition

theorem Clean.rewritten {t u : Text} (h : Clean t) (hr : Rewritten t u) : Clean u := by
  refine ⟨?_, ⟨?_, ?_⟩, singleReturns_rewritten hr [] h.single⟩
  · have hleaves := h.leaves
    rwa [Pointer.Leaves, ← Pointer.run?_rewritten hr] at hleaves
  · rw [hr.head?_eq]
    exact h.trimmed.1
  · rw [hr.getLast?_eq]
    exact h.trimmed.2

theorem Clean.normalize {t : Text} (h : Clean t) : Clean (normalize t) :=
  normalize_induction (fun _ _ hr ht => ht.rewritten hr) h

namespace Text

theorem squeeze_dropReturns (inRun : Bool) (t : Text) :
    squeeze isBlank ' ' inRun (dropReturns t) = squeeze isBlank ' ' inRun t := by
  induction t using returns_induction generalizing inRun with
  | nil => rfl
  | feed t ih =>
    rw [dropReturns_feed, squeeze_blank (by decide), squeeze_blank (by decide),
      squeeze_blank (by decide), ih]
    rfl
  | char c t hc ih =>
    rw [dropReturns_cons hc, squeeze, squeeze, ih, ih]

theorem squeeze_setIn (inRun : Bool) (t : Text) :
    squeeze isBlank ' ' inRun (setIn t) = squeeze isBlank ' ' inRun t := by
  induction t generalizing inRun with
  | nil => rfl
  | cons c t ih =>
    rw [setIn]
    split_ifs with h
    · rw [h.1, squeeze_blank (by decide), squeeze_blank (by decide), squeeze_blank (by decide),
        squeeze_blank (by decide), ih]
      rfl
    · rw [squeeze, squeeze, ih, ih]

theorem squeezeBlanks_reline (t : Text) : squeezeBlanks (reline t) = squeezeBlanks t :=
  (squeeze_setIn false _).trans (squeeze_dropReturns false t)

end Text

namespace AtRule

open Sheet

def head (selector : Text) : Text :=
  (condition? selector).getD selector

def conditionFor (keyword condition : Text) : Text :=
  if keyword = "@supports" then condition else normalize condition

def endsKeyword (c : Char) : Bool :=
  isBlank c || c == '('

variable {t u s gap keyword condition : Text} {c : Char}

theorem condition?_eq (t : Text) : condition? t =
    if lower (t.takeWhile (!endsKeyword ·)) ∈ conditionalKeywords then
      some (lower (t.takeWhile (!endsKeyword ·)) ++ ' ' ::
        conditionFor (lower (t.takeWhile (!endsKeyword ·))) (trim (t.dropWhile (!endsKeyword ·))))
    else none := by
  have hsplit : splitKeyword t =
      (t.takeWhile (!endsKeyword ·), t.dropWhile (!endsKeyword ·)) := rfl
  rw [condition?, hsplit]
  dsimp only
  generalize lower (t.takeWhile (!endsKeyword ·)) = keyword
  generalize trim (t.dropWhile (!endsKeyword ·)) = condition
  by_cases hmem : keyword ∈ conditionalKeywords
  · rw [if_pos hmem]
    simp only [conditionalKeywords, List.mem_cons, List.not_mem_nil, or_false] at hmem
    rcases hmem with rfl | rfl | rfl <;> rfl
  · rw [if_neg hmem]
    simp only [conditionalKeywords, List.mem_cons, List.not_mem_nil, or_false, not_or] at hmem
    rw [if_neg (not_or.mpr ⟨hmem.1, hmem.2.1⟩), if_neg hmem.2.2]

theorem condition?_append (hk : ∀ d ∈ keyword, endsKeyword d = false)
    (hu : ∀ d ∈ u.head?, endsKeyword d = true) : condition? (keyword ++ u) =
      if lower keyword ∈ conditionalKeywords then
        some (lower keyword ++ ' ' :: conditionFor (lower keyword) (trim u))
      else none := by
  have hk' : ∀ d ∈ keyword, (!endsKeyword d) = true := fun d hd => by rw [hk d hd]; rfl
  have htake : (keyword ++ u).takeWhile (!endsKeyword ·) = keyword := by
    rw [List.takeWhile_append_of_pos hk']
    rcases u with _ | ⟨d, u⟩
    · simp
    · simp [hu d rfl]
  have hdrop : (keyword ++ u).dropWhile (!endsKeyword ·) = u := by
    rw [List.dropWhile_append_of_pos hk']
    rcases u with _ | ⟨d, u⟩
    · rfl
    · simp [hu d rfl]
  rw [condition?_eq, htake, hdrop]

/-- Whether a prelude is one of a conditional at-rule does not depend on how it is spaced. -/
theorem condition?_reline (h : condition? t = none) : condition? (reline t) = none := by
  have hblank : ∀ c, isBlank c = true → (!endsKeyword c) = false := fun c hc => by
    simp [endsKeyword, hc]
  have hkeyword : (reline t).takeWhile (!endsKeyword ·) = t.takeWhile (!endsKeyword ·) := by
    rw [← takeWhile_squeezeBlanks hblank, squeezeBlanks_reline, takeWhile_squeezeBlanks hblank]
  rw [condition?_eq] at h ⊢
  rw [hkeyword]
  split_ifs at h ⊢
  rfl

structure Conditional (keyword condition : Text) : Prop where
  keyword_mem : keyword ∈ conditionalKeywords
  trimmed : Trimmed condition
  final : keyword = "@supports" ∨ Settled condition

/-- What is printed as a head, and the space that is printed behind it if a condition is empty. -/
inductive IsHead : Text → Text → Prop
  | other {s : Text} (h : condition? s = none) : IsHead s []
  | bare {keyword : Text} (h : Conditional keyword []) : IsHead keyword [' ']
  | conditional {keyword condition : Text} (h : Conditional keyword condition)
      (hne : condition ≠ []) : IsHead (keyword ++ ' ' :: condition) []

theorem Conditional.condition?_append (h : Conditional keyword condition)
    (hu : ∀ d ∈ u.head?, endsKeyword d = true) (htrim : trim u = condition) :
    condition? (keyword ++ u) = some (keyword ++ ' ' :: condition) := by
  have hkeywords : ∀ k ∈ conditionalKeywords,
      lower k = k ∧ (k.all fun c => !endsKeyword c) = true := by decide
  obtain ⟨hlower, hends⟩ := hkeywords keyword h.keyword_mem
  rw [AtRule.condition?_append (by simpa using hends) hu, hlower, if_pos h.keyword_mem, htrim,
    conditionFor]
  split_ifs with hsupports
  · rfl
  · rw [(h.final.resolve_left hsupports).normalize_eq]

theorem Conditional.reline (h : Conditional keyword condition) :
    Conditional keyword (reline condition) := by
  refine ⟨h.keyword_mem, trimmed_reline h.trimmed, h.final.imp_right fun hsettled => ?_⟩
  rwa [← settled_squeezeBlanks, squeezeBlanks_reline, settled_squeezeBlanks]

theorem IsHead.head_eq (h : IsHead s gap) : head s = s ++ gap := by
  cases h with
  | other h => rw [head, h, Option.getD_none, List.append_nil]
  | bare h =>
    have hcondition := h.condition?_append (u := []) (by simp) rfl
    rw [List.append_nil] at hcondition
    rw [head, hcondition, Option.getD_some]
  | @conditional keyword condition h hne =>
    have htrim : trim (' ' :: condition) = condition := by
      rw [← List.singleton_append, trim_blank_append (by decide), h.trimmed.trim_eq]
    rw [head, h.condition?_append (by simp [endsKeyword]; decide) htrim, Option.getD_some,
      List.append_nil]

theorem IsHead.reline (h : IsHead s gap) : IsHead (reline s) gap := by
  have hkeywords : ∀ k ∈ conditionalKeywords, Text.reline k = k ∧ Trimmed k := by decide
  cases h with
  | other h => exact .other (condition?_reline h)
  | bare h =>
    rw [(hkeywords s h.keyword_mem).1]
    exact .bare h
  | @conditional keyword condition h hne =>
    obtain ⟨hkeep, htrimmed⟩ := hkeywords keyword h.keyword_mem
    rw [reline_append htrimmed.endsVisibly, hkeep, reline_cons (by decide) (by decide)]
    exact .conditional h.reline (reline_ne_nil hne)

theorem isDull_of_lower_mem (h : lower keyword ∈ conditionalKeywords) (hc : c ∈ keyword) :
    Pointer.IsDull c := by
  have hlower : c.toLower ∈ conditionalKeywords.flatten :=
    List.mem_flatten.mpr ⟨_, h, List.mem_map_of_mem hc⟩
  have hspecial : (['"', '\'', '\\', '/', '*', '(', ')', '{', '}', ';'].all fun d =>
      d.toLower ∉ conditionalKeywords.flatten) = true := by decide
  exact notMem_of_all hspecial (by simpa using hlower)

theorem clean_conditionFor (h : Clean condition) (keyword : Text) :
    Clean (conditionFor keyword condition) := by
  rw [AtRule.conditionFor]
  split_ifs
  · exact h
  · exact h.normalize

/-- A head as it is printed that is read as it is written, apart from a space behind it. -/
def Printable (head : Text) : Prop :=
  ∃ s gap, head = s ++ gap ∧ IsHead s gap ∧ Chunk s ∧ SingleReturns s

theorem Conditional.printable (h : Conditional keyword condition) (hc : Clean condition) :
    Printable (keyword ++ ' ' :: condition) := by
  have hkeywords : ∀ k ∈ conditionalKeywords, Chunk k ∧ '\r' ∉ k ∧ lower k = k := by decide
  obtain ⟨hchunk, hreturn, hlower⟩ := hkeywords keyword h.keyword_mem
  by_cases hne : condition = []
  · subst hne
    exact ⟨keyword, [' '], rfl, .bare h, hchunk, .of_notMem hreturn⟩
  · refine ⟨_, [], (List.append_nil _).symm, .conditional h hne, ?_, ?_⟩
    · obtain ⟨hleaves, htrimmed, hk⟩ := chunk_iff.mp hchunk
      have hdull : ∀ c ∈ keyword ++ [' '], Pointer.IsDull c := by
        refine List.forall_mem_append.mpr ⟨fun c => isDull_of_lower_mem ?_, by decide⟩
        rw [hlower]
        exact h.keyword_mem
      refine chunk_iff.mpr ⟨?_, ?_, by simp⟩
      · rw [List.append_cons, Pointer.leaves_dull_append rfl hdull]
        exact hc.leaves
      · have happend := htrimmed.append h.trimmed hk hne [' ']
        simpa using happend
    · have hsingle : SingleReturns keyword := .of_notMem hreturn
      exact hsingle.append_cons hc.single (by decide) (by decide)

theorem printable_head (ht : Clean t) (hne : t ≠ []) : Printable (head t) := by
  have heq := condition?_eq t
  split_ifs at heq with hmem
  · have hsplit : t.takeWhile (!endsKeyword ·) ++ t.dropWhile (!endsKeyword ·) = t :=
      List.takeWhile_append_dropWhile
    generalize t.takeWhile (!endsKeyword ·) = keyword at *
    generalize t.dropWhile (!endsKeyword ·) = rest at *
    subst hsplit
    have hrest : Clean (trim rest) := by
      refine ⟨?_, trimmed_trim rest, singleReturns_trim (ht.single.mono ?_)⟩
      · rw [Pointer.leaves_trim]
        exact (Pointer.leaves_dull_append rfl (fun c => isDull_of_lower_mem hmem) _ _).mp ht.leaves
      · exact (List.suffix_append keyword rest).isInfix
    have hclean := clean_conditionFor hrest (lower keyword)
    have hfinal : lower keyword = "@supports" ∨ Settled (conditionFor (lower keyword) (trim rest)) := by
      rw [conditionFor]
      split_ifs with hsupports
      · exact Or.inl hsupports
      · exact Or.inr (settled_normalize _)
    rw [head, heq, Option.getD_some]
    exact Conditional.printable ⟨hmem, hclean.trimmed, hfinal⟩ hclean
  · exact ⟨t, [], by rw [head, heq]; simp, .other heq, ht.chunk hne, ht.single⟩

end AtRule

end Restyle
