import Restyle.Proofs.Stylesheet.Cutting

/-! # Stylesheets side by side

Where a stylesheet leaves nothing open, what follows it is read as if it stood
alone. A stylesheet is complete if that holds too after any of its outermost
blocks have been cut out; only such stylesheets can be joined and cut at will.
-/

namespace Restyle

open Text Lexeme

namespace Draft

/-- No block, no parenthesis and no declaration is open. -/
structure Settled (d : Draft) : Prop where
  outer : d.outer = []
  text : d.text = []
  depth : d.depth = 0

instance (d : Draft) : Decidable d.Settled :=
  decidable_of_iff (d.outer.isEmpty = true ∧ d.text.isEmpty = true ∧ d.depth = 0)
    ⟨fun h => ⟨List.isEmpty_iff.mp h.1, List.isEmpty_iff.mp h.2.1, h.2.2⟩,
      fun h => by simp [h.outer, h.text, h.depth]⟩

def framesAbove (ns : List Node) : List Frame → List Frame
  | [] => []
  | [f] => [{ f with before := f.before ++ ns }]
  | f :: g :: outer => f :: framesAbove ns (g :: outer)

def above (d : Draft) (ns : List Node) : Draft :=
  { d with outer := framesAbove ns d.outer
           nodes := if d.outer.isEmpty then d.nodes ++ ns else d.nodes }

variable {d : Draft} {ns : List Node} {l : Lexeme} {c : Char} {t : Text}

theorem framesAbove_isEmpty (ns : List Node) (outer : List Frame) :
    (framesAbove ns outer).isEmpty = outer.isEmpty := by
  rcases outer with _ | ⟨f, _ | ⟨g, outer⟩⟩ <;> rfl

theorem getLast?_framesAbove (ns : List Node) (outer : List Frame) :
    (framesAbove ns outer).getLast? =
      outer.getLast?.map fun f => { f with before := f.before ++ ns } := by
  induction outer with
  | nil => rfl
  | cons f outer ih =>
    rcases outer with _ | ⟨g, outer⟩
    · rfl
    · rw [framesAbove, List.getLast?_cons_cons, ← ih]
      rcases hg : framesAbove ns (g :: outer) with _ | ⟨e, fs⟩
      · have hempty := framesAbove_isEmpty ns (g :: outer)
        simp [hg] at hempty
      · exact List.getLast?_cons_cons

theorem flushed_above (d : Draft) (ns : List Node) :
    (d.above ns).flushed = if d.outer.isEmpty then d.flushed ++ ns else d.flushed := by
  by_cases ht : (trim d.text.reverse).isEmpty = true <;>
    by_cases ho : d.outer.isEmpty = true <;> simp [flushed, above, ht, ho]

theorem addChar_above (d : Draft) (ns : List Node) (c : Char) :
    (d.above ns).addChar c = (d.addChar c).above ns := by
  have ht : (d.above ns).text = d.text := rfl
  rw [addChar, addChar, ht]
  split_ifs <;> rfl

theorem openBlock_above (d : Draft) (ns : List Node) :
    (d.above ns).openBlock = d.openBlock.above ns := by
  rcases h : d.outer with _ | ⟨f, outer⟩ <;> simp [openBlock, above, framesAbove, h]

theorem closeDeclaration_above (d : Draft) (ns : List Node) :
    (d.above ns).closeDeclaration = d.closeDeclaration.above ns := by
  simp only [closeDeclaration, flushed_above]
  simp only [above]

theorem closeBlock_of_cons {f : Frame} {outer : List Frame} (h : d.outer = f :: outer) :
    d.closeBlock = { outer, nodes := .block f.selector d.flushed.reverse :: f.before } := by
  rw [closeBlock, h]

theorem closeBlock_above (d : Draft) (ns : List Node) :
    (d.above ns).closeBlock = d.closeBlock.above ns := by
  have hflushed := flushed_above d ns
  rcases h : d.outer with _ | ⟨f, _ | ⟨g, outer⟩⟩
  · simp [closeBlock, above, framesAbove, h]
  · have houter : (d.above ns).outer = [{ f with before := f.before ++ ns }] := by
      simp [above, h, framesAbove]
    rw [h] at hflushed
    rw [closeBlock_of_cons houter, closeBlock_of_cons h, hflushed]
    rfl
  · have houter : (d.above ns).outer = f :: framesAbove ns (g :: outer) := by
      simp [above, h, framesAbove]
    rw [h] at hflushed
    rw [closeBlock_of_cons houter, closeBlock_of_cons h, hflushed]
    rfl

theorem step_above (d : Draft) (ns : List Node) (l : Lexeme) :
    (d.above ns).step l = (d.step l).above ns := by
  cases l with
  | quoted t closed => rfl
  | comment t closed => rfl
  | plain c =>
    have hdepth : (d.above ns).depth = d.depth := rfl
    simp only [step, hdepth]
    split_ifs
    · rfl
    · rfl
    · exact openBlock_above d ns
    · exact closeBlock_above d ns
    · exact closeDeclaration_above d ns
    · exact addChar_above d ns c

theorem read_above (d : Draft) (ns : List Node) (ls : List Lexeme) :
    (d.above ns).read ls = (d.read ls).above ns := by
  induction ls generalizing d with
  | nil => rfl
  | cons l ls ih => exact (congrArg (read · ls) (step_above d ns l)).trans (ih _)

theorem finish_above (d : Draft) (ns : List Node) :
    (d.above ns).finish = ns.reverse ++ d.finish := by
  have hlast : (d.above ns).outer.getLast? =
      d.outer.getLast?.map fun f => { f with before := f.before ++ ns } :=
    getLast?_framesAbove ns d.outer
  rw [finish, finish, hlast]
  rcases h : d.outer.getLast? with _ | f
  · rw [List.getLast?_eq_none_iff] at h
    simp [flushed_above, h]
  · simp

theorem Settled.eq_above (h : d.Settled) : d = ({} : Draft).above d.nodes := by
  obtain ⟨outer, nodes, text, depth⟩ := d
  obtain ⟨rfl, rfl, rfl⟩ := h
  rfl

theorem Settled.finish_eq (h : d.Settled) : d.finish = d.nodes.reverse := by
  simp [finish, h.outer, flushed, h.text]

theorem step_of_blank (d : Draft) (hc : isBlank c = true) : d.step (.plain c) = d.addChar c := by
  have hb : ∀ e, isBlank e = false → c ≠ e := by
    rintro e he rfl
    rw [hc] at he
    exact Bool.false_ne_true he.symm
  rw [step, if_neg (hb '(' (by decide)), if_neg (hb ')' (by decide)), if_neg (hb '{' (by decide)),
    if_neg (hb '}' (by decide)), if_neg fun h => hb ';' (by decide) h.1]

theorem step_blank (ht : d.text = []) (hc : isBlank c = true) : d.step (.plain c) = d := by
  rw [step_of_blank d hc]
  simp [addChar, ht, hc]

theorem flushed_add_append_blank (d : Draft) (t : Text) {w : Text} (hw : Blank w) :
    (d.add (t ++ w)).flushed = (d.add t).flushed := by
  have ht : trim (d.add (t ++ w)).text.reverse = trim (d.add t).text.reverse := by
    simp only [add, List.reverse_append, List.reverse_reverse]
    rw [← List.append_assoc, trim_append_blank _ hw]
  rw [flushed, flushed, ht]
  rfl

theorem finish_add_append_blank (d : Draft) (t : Text) {w : Text} (hw : Blank w) :
    (d.add (t ++ w)).finish = (d.add t).finish := by
  rw [finish, finish, flushed_add_append_blank d t hw]
  rfl

theorem finish_step_blank (d : Draft) (hc : isBlank c = true) :
    (d.step (.plain c)).finish = d.finish := by
  by_cases ht : d.text = []
  · rw [step_blank ht hc]
  · rw [step_of_blank d hc, addChar, if_neg (by simp [ht])]
    exact finish_add_append_blank d [] (blank_cons.mpr ⟨hc, Blank.nil⟩)

theorem text_step_eq_nil (hc : ¬ (c = '{' ∨ c = '}' ∨ c = ';' ∧ d.depth = 0))
    (h : (d.step (.plain c)).text = []) : d.text = [] ∧ isBlank c = true := by
  simp only [not_or] at hc
  rw [step, if_neg hc.1, if_neg hc.2.1, if_neg hc.2.2] at h
  split_ifs at h
  · simp [add] at h
  · simp [add] at h
  · by_cases hb : (d.text.isEmpty && isBlank c) = true
    · simpa using hb
    · rw [addChar, if_neg hb] at h
      simp [add] at h

def bottom (d : Draft) : List Node :=
  match d.outer.getLast? with
  | none => d.nodes
  | some f => f.before

theorem bottom_of_outer_eq_nil (h : d.outer = []) : d.bottom = d.nodes := by
  rw [bottom, h]
  rfl

theorem bottom_eq_of_outer_eq {d' : Draft} (h : d'.outer = d.outer) (hd : d.outer ≠ []) :
    d'.bottom = d.bottom := by
  obtain ⟨f, hf⟩ := Option.ne_none_iff_exists'.mp (mt List.getLast?_eq_none_iff.mp hd)
  rw [bottom, bottom, h, hf]

theorem bottom_subset_finish (d : Draft) : d.bottom ⊆ d.finish := by
  intro n hn
  rw [bottom] at hn
  rw [finish]
  rcases h : d.outer.getLast? with _ | f <;> rw [h] at hn
  · refine List.mem_reverse.mpr ?_
    rw [flushed]
    split
    · exact hn
    · exact List.mem_cons_of_mem _ hn
  · exact List.mem_reverse.mpr hn

theorem bottom_openBlock (d : Draft) : d.openBlock.bottom = d.bottom := by
  rcases h : d.outer.getLast? with _ | f
  · rw [List.getLast?_eq_none_iff] at h
    simp [bottom, openBlock, h]
  · simp [bottom, openBlock, List.getLast?_cons, h]

theorem bottom_subset_closeDeclaration (d : Draft) : d.bottom ⊆ d.closeDeclaration.bottom := by
  have ho : d.closeDeclaration.outer = d.outer := rfl
  rw [bottom, bottom, ho]
  split
  · intro n hn
    rw [closeDeclaration, flushed]
    split
    · exact hn
    · exact List.mem_cons_of_mem _ hn
  · exact List.Subset.refl _

theorem bottom_subset_closeBlock (d : Draft) : d.bottom ⊆ d.closeBlock.bottom := by
  rcases h : d.outer with _ | ⟨f, _ | ⟨g, outer⟩⟩
  · simp [closeBlock, bottom, h]
  · rw [closeBlock_of_cons h, bottom, h]
    exact List.subset_cons_self _ _
  · obtain ⟨e, he⟩ : ∃ e, (g :: outer).getLast? = some e := ⟨_, List.getLast?_cons⟩
    rw [closeBlock_of_cons h, bottom, bottom, h, List.getLast?_cons_cons, he]
    exact List.Subset.refl _

theorem bottom_subset_step (d : Draft) (l : Lexeme) : d.bottom ⊆ (d.step l).bottom := by
  cases l with
  | quoted t closed => exact List.Subset.refl _
  | comment t closed => exact List.Subset.refl _
  | plain c =>
    rw [step]
    split_ifs
    · exact List.Subset.refl _
    · exact List.Subset.refl _
    · exact (bottom_openBlock d).symm ▸ List.Subset.refl _
    · exact bottom_subset_closeBlock d
    · exact bottom_subset_closeDeclaration d
    · rw [addChar]
      split
      · exact List.Subset.refl _
      · exact List.Subset.refl _

theorem bottom_subset_read (d : Draft) (ls : List Lexeme) : d.bottom ⊆ (d.read ls).bottom := by
  induction ls generalizing d with
  | nil => exact List.Subset.refl _
  | cons l ls ih => exact List.Subset.trans (bottom_subset_step d l) (ih _)

end Draft

namespace Cutter

variable {skips : Node → Bool} {c : Cutter} {l : Lexeme} {ls ms : List Lexeme} {a : Char}

/-- A cutter behind older nodes, of which some are kept. -/
def above (c : Cutter) (ns ks : List Node) : Cutter :=
  { c with whole := c.whole.above ns, kept := c.kept.above ks, saved := c.saved.above ks }

theorem cuts_above (skips : Node → Bool) (d : Draft) (ns : List Node) (l : Lexeme) :
    cuts skips (d.above ns) l = cuts skips d l := by
  have hflushed := d.flushed_above ns
  have houter : (d.above ns).outer = Draft.framesAbove ns d.outer := rfl
  rw [cuts, cuts, houter, hflushed]
  rcases d.outer with _ | ⟨f, _ | ⟨g, outer⟩⟩
  · rfl
  · rfl
  · have hne := Draft.framesAbove_isEmpty ns (g :: outer)
    obtain ⟨e, fs, he⟩ : ∃ e fs, Draft.framesAbove ns (g :: outer) = e :: fs := by
      rcases h : Draft.framesAbove ns (g :: outer) with _ | ⟨e, fs⟩
      · simp [h] at hne
      · exact ⟨e, fs, rfl⟩
    rw [Draft.framesAbove, he]

theorem step_above (c : Cutter) (ns ks : List Node) (l : Lexeme) :
    (c.above ns ks).step skips l = (c.step skips l).above ns ks := by
  have hempty : ((c.whole.step l).above ns).outer.isEmpty = (c.whole.step l).outer.isEmpty :=
    Draft.framesAbove_isEmpty ns _
  have hdepth : (c.whole.above ns).depth = c.whole.depth := rfl
  simp only [step, above, cuts_above, Draft.step_above, hempty, hdepth]
  split_ifs <;> rfl

theorem read_above (c : Cutter) (ns ks : List Node) (ls : List Lexeme) :
    (c.above ns ks).read skips ls = (c.read skips ls).above ns ks := by
  induction ls generalizing c with
  | nil => rfl
  | cons l ls ih => exact (congrArg (read skips · ls) (step_above c ns ks l)).trans (ih _)

structure Resting (c : Cutter) : Prop where
  outer : c.whole.outer = []
  text : c.whole.text = []
  kept_text : c.kept.text = []
  saved : c.saved = c.kept

theorem Resting.step_blank (h : Resting c) (ha : isBlank a = true) (skips : Node → Bool)
    (begun : Bool) :
    ({ c with begun } : Cutter).step skips (.plain a) = { c with begun } := by
  have hb : ∀ e, isBlank e = false → a ≠ e := by
    rintro e he rfl
    rw [ha] at he
    exact Bool.false_ne_true he.symm
  have hcuts : cuts skips c.whole (.plain a) = false := by simp [cuts, h.outer]
  have hbegins : begins begun c.whole.depth (.plain a) = begun := by
    have hn : ¬ (a = '{' ∨ a = '}' ∨ a = ';' ∧ c.whole.depth = 0) := by
      rintro (h | h | ⟨h, -⟩)
      · exact hb '{' (by decide) h
      · exact hb '}' (by decide) h
      · exact hb ';' (by decide) h
    simp [begins, hn, ha]
  simp only [step, Draft.step_blank h.text ha, Draft.step_blank h.kept_text ha, hcuts, hbegins,
    h.saved, Bool.false_eq_true, ite_self]

/-- Whether a comment has come since the last outermost node makes no difference. -/
theorem Resting.kept_read (h : Resting c) (begun : Bool) (ls : List Lexeme) :
    (({ c with begun } : Cutter).read skips ls).kept = (c.read skips ls).kept := by
  induction ls with
  | nil => rfl
  | cons l ls ih =>
    by_cases hl : ∃ a, l = .plain a ∧ isBlank a = true
    · obtain ⟨a, rfl, ha⟩ := hl
      have h₁ : ({ c with begun } : Cutter).step skips (.plain a) = { c with begun } :=
        h.step_blank ha skips begun
      have h₂ : c.step skips (.plain a) = c := h.step_blank ha skips c.begun
      calc (read skips (step skips { c with begun } (.plain a)) ls).kept
        _ = (read skips { c with begun } ls).kept := by rw [h₁]
        _ = (read skips c ls).kept := ih
        _ = (read skips (step skips c (.plain a)) ls).kept := by rw [h₂]
    · have hbegins : begins begun c.whole.depth l = begins c.begun c.whole.depth l := by
        cases l with
        | quoted t closed => rfl
        | comment t closed => rfl
        | plain a =>
          have ha : isBlank a = false := by simpa using fun ha => hl ⟨a, rfl, ha⟩
          simp [begins, ha]
      have hstep : ({ c with begun } : Cutter).step skips l = c.step skips l := by
        simp only [step, hbegins]
      exact congrArg (fun c => (read skips c ls).kept) hstep

/-- Where no node has begun, all that is kept is kept for good; so it is where only white space
and comments have come. -/
def Rests (c : Cutter) : Prop :=
  c.whole.outer = [] → c.begun = false ∨ c.whole.text = [] ∧ c.kept.text = [] → c.saved = c.kept

theorem Rests.step (h : Rests c) (hl : l.Sound) (skips : Node → Bool) :
    Rests (c.step skips l) := by
  intro ho hr
  have ho' : (c.whole.step l).outer = [] := ho
  by_cases hb : begins c.begun c.whole.depth l = false
  · simp [Cutter.step, hb, ho']
  · obtain ⟨ht, hk⟩ := hr.resolve_left hb
    have ht' : (c.whole.step l).text = [] := ht
    cases l with
    | quoted t closed =>
      exfalso
      have hne : t ≠ [] := hl.text_ne_nil
      simp [Draft.step, Draft.add, hne] at ht'
    | comment t closed =>
      have hcuts : cuts skips c.whole (.comment t closed) = false := by
        rw [cuts]
        split <;> rfl
      simp only [Cutter.step, hcuts, Bool.false_eq_true, if_false] at hk ⊢
      have hs := h ho' (Or.inr ⟨ht', hk⟩)
      simp [Cutter.begins, Draft.step, hs]
    | plain a =>
      have hn : ¬ (a = '{' ∨ a = '}' ∨ a = ';' ∧ c.whole.depth = 0) := by
        intro hn
        simp [begins, hn] at hb
      obtain ⟨hw, ha⟩ := Draft.text_step_eq_nil hn ht'
      rw [Draft.step_blank hw ha] at ho'
      have hcuts : cuts skips c.whole (.plain a) = false := by simp [cuts, ho']
      have hk' : (c.kept.step (.plain a)).text = [] := by
        simpa only [Cutter.step, hcuts, Bool.false_eq_true, if_false] using hk
      have hkept : c.kept.text = [] := (Draft.text_step_eq_nil (by
        rintro (rfl | rfl | ⟨rfl, -⟩) <;> exact absurd ha (by decide)) hk').1
      have hr' : Resting c := ⟨ho', hw, hkept, h ho' (Or.inr ⟨hw, hkept⟩)⟩
      rw [hr'.step_blank ha skips c.begun]
      exact hr'.saved

theorem Rests.read (h : Rests c) (hls : ∀ l ∈ ls, l.Sound) (skips : Node → Bool) :
    Rests (c.read skips ls) := by
  induction ls generalizing c with
  | nil => exact h
  | cons l ls ih =>
    exact ih (h.step (hls l List.mem_cons_self) skips) fun m hm => hls m (List.mem_cons_of_mem l hm)

structure Settled (c : Cutter) : Prop where
  whole : c.whole.Settled
  kept : c.kept.Settled

theorem Settled.resting (h : Settled c) (hc : Rests c) : Resting c :=
  ⟨h.whole.outer, h.whole.text, h.kept.text,
    hc h.whole.outer (Or.inr ⟨h.whole.text, h.kept.text⟩)⟩

/-- Behind a settled cutter everything is kept that is kept of what follows alone. -/
theorem Settled.kept_read (h : Settled c) (hc : Rests c) (ls : List Lexeme) :
    (c.read skips ls).kept = (({} : Cutter).read skips ls).kept.above c.kept.nodes := by
  have hrest := h.resting hc
  have hfresh : ({ c with begun := false } : Cutter) =
      ({} : Cutter).above c.whole.nodes c.kept.nodes := by
    have hw := h.whole.eq_above
    have hk := h.kept.eq_above
    simp only [above, ← hw, ← hk, hrest.saved]
  rw [← hrest.kept_read false ls, hfresh, read_above]
  rfl

theorem cuts_of_ne {d : Draft} (h : l ≠ .plain '}') : cuts skips d l = false := by
  rw [cuts]
  split
  · simp [h]
  · rfl

theorem kept_step_of_ne (h : l ≠ .plain '}') : (c.step skips l).kept = c.kept.step l := by
  simp [step, cuts_of_ne h]

theorem finish_read_blank {w : Text} (hw : Blank w) (c : Cutter) :
    (c.read skips (w.map .plain)).kept.finish = c.kept.finish := by
  induction w generalizing c with
  | nil => rfl
  | cons a w ih =>
    obtain ⟨ha, hw⟩ := blank_cons.mp hw
    have hne : Lexeme.plain a ≠ .plain '}' := by
      rintro ⟨⟩
      exact absurd ha (by decide)
    refine (ih hw (c.step skips (.plain a))).trans ?_
    rw [kept_step_of_ne hne, Draft.finish_step_blank _ ha]

theorem finish_step_extend (hl : l.closed = false) {w : Text} (hw : Blank w) (c : Cutter) :
    (c.step skips (l.extend w)).kept.finish = (c.step skips l).kept.finish := by
  cases l with
  | plain a => exact absurd hl.symm Bool.false_ne_true
  | quoted t closed =>
    rw [extend, kept_step_of_ne (by simp), kept_step_of_ne (by simp)]
    exact Draft.finish_add_append_blank _ t hw
  | comment t closed =>
    rw [extend, kept_step_of_ne (by simp), kept_step_of_ne (by simp)]
    rfl

theorem mem_bottom_of_cuts {d : Draft} (h : cuts skips d l = true) :
    ∃ n ∈ (d.step l).bottom, skips n = true := by
  rw [cuts] at h
  rcases ho : d.outer with _ | ⟨f, _ | ⟨g, outer⟩⟩ <;> rw [ho] at h
  · exact absurd h Bool.false_ne_true
  · obtain ⟨hl, hs⟩ := Bool.and_eq_true_iff.mp h
    refine ⟨_, ?_, hs⟩
    have hstep : d.step l = d.closeBlock := by
      rw [beq_iff_eq.mp hl]
      rfl
    rw [hstep, Draft.closeBlock_of_cons ho]
    exact List.mem_cons_self
  · exact absurd h Bool.false_ne_true

theorem kept_read_of_unskipped (hk : c.kept = c.whole)
    (h : ∀ n ∈ (c.whole.read ls).bottom, skips n = false) :
    (c.read skips ls).kept = c.whole.read ls := by
  induction ls generalizing c with
  | nil => exact hk
  | cons l ls ih =>
    have hcuts : cuts skips c.whole l = false := by
      by_contra hc
      rw [Bool.not_eq_false] at hc
      obtain ⟨n, hn, hs⟩ := mem_bottom_of_cuts hc
      rw [h n (Draft.bottom_subset_read _ ls hn)] at hs
      exact Bool.false_ne_true hs
    refine ih (c := c.step skips l) ?_ h
    simp [step, hcuts, hk]

end Cutter

/-- The nodes of a stylesheet without its outermost blocks of some kind. -/
def remaining (skips : Node → Bool) (css : Text) : List Node :=
  (({} : Cutter).read skips (scan css)).kept.finish

theorem inert_of_blank {w : Text} (hw : Blank w) : Inert w :=
  fun _ hc => hw.notMem hc (by decide)

theorem scan_blank {w : Text} (hw : Blank w) : scan w = w.map .plain :=
  (Plain.of_forall fun _ hc => hw.notMem hc (by decide)).scan_eq

/-- White space behind a text is a sequence of lexemes of its own, or becomes part of the lexeme that
the text leaves open. -/
theorem scan_append_blank_cases (t : Text) {w : Text} (hw : Blank w) :
    scan (t ++ w) = scan t ++ w.map .plain ∨
      ∃ ls l, l.closed = false ∧ scan t = ls ++ [l] ∧ scan (t ++ w) = ls ++ [l.extend w] := by
  by_cases h : ∀ l ∈ (scan t).getLast?, l.closed = true
  · have ha : Apart (scan t) w := by
      refine fun l hl => ⟨h l hl, fun _ he => ?_⟩
      obtain ⟨w', rfl⟩ := List.head?_eq_some_iff.mp he
      exact absurd (blank_cons.mp hw).1 (by decide)
    exact Or.inl (by rw [scan_append ha, scan_blank hw])
  · push Not at h
    obtain ⟨l, hlast, hl⟩ := h
    have hopen : l.closed = false := by simpa using hl
    obtain ⟨ls, hls⟩ := List.getLast?_eq_some_iff.mp hlast
    exact Or.inr ⟨ls, l, hopen, hls, scan_append_of_open (inert_of_blank hw) hls hopen⟩

theorem remaining_append_blank (skips : Node → Bool) (t : Text) {w : Text} (hw : Blank w) :
    remaining skips (t ++ w) = remaining skips t := by
  rcases scan_append_blank_cases t hw with h | ⟨ls, l, hopen, hls, h⟩
  · rw [remaining, h, Cutter.read_append, Cutter.finish_read_blank hw, remaining]
  · rw [remaining, h, Cutter.read_append, remaining, hls, Cutter.read_append]
    exact Cutter.finish_step_extend hopen hw _

namespace Snippet

/-- At the end of the text no quote, comment, block, parenthesis or declaration is open. -/
structure Closed (t : Text) : Prop where
  closed : ∀ l ∈ (scan t).getLast?, l.closed = true
  settled : (({} : Draft).read (scan t)).Settled

instance (t : Text) : Decidable (Closed t) :=
  decidable_of_iff ((∀ l ∈ (scan t).getLast?, l.closed = true) ∧
      (({} : Draft).read (scan t)).Settled)
    ⟨fun h => ⟨h.1, h.2⟩, fun h => ⟨h.closed, h.settled⟩⟩

/-- Nor is one open after the outermost blocks of some kind have been cut out. -/
structure ClosedWithout (skips : Node → Bool) (t : Text) : Prop where
  closed : ∀ l ∈ (scan t).getLast?, l.closed = true
  settled : (({} : Cutter).read skips (scan t)).Settled

/-- Nothing is open at the end of the text, whatever outermost blocks are cut out. -/
def Complete (t : Text) : Prop :=
  ∀ skips, (∀ u, skips (.declaration u) = false) → ClosedWithout skips t

variable {skips : Node → Bool} {t u w : Text}

theorem ClosedWithout.toClosed (h : ClosedWithout skips t) : Closed t := by
  refine ⟨h.closed, ?_⟩
  have hw := h.settled.whole
  rwa [Cutter.whole_read] at hw

theorem Closed.apart (h : Closed t) (u : Text) : Apart (scan t) u := by
  intro l hl
  refine ⟨h.closed l hl, ?_⟩
  rintro rfl -
  obtain ⟨ls, hls⟩ := List.getLast?_eq_some_iff.mp hl
  have ht : ((({} : Draft).read ls).step (.plain '/')).text = [] := by
    have hd := h.settled.text
    rwa [hls, Draft.read_append] at hd
  have hslash : isBlank '/' = false := by decide
  have hb := (Draft.text_step_eq_nil (by simp) ht).2
  rw [hslash] at hb
  exact Bool.false_ne_true hb

theorem Closed.scan_append (h : Closed t) (u : Text) : scan (t ++ u) = scan t ++ scan u :=
  Lexeme.scan_append (h.apart u)

/-- What follows a closed text is read as if it stood alone. -/
theorem Closed.read_append (h : Closed t) (u : Text) :
    ({} : Draft).read (scan (t ++ u)) =
      (({} : Draft).read (scan u)).above (({} : Draft).read (scan t)).nodes := by
  rw [h.scan_append, Draft.read_append, h.settled.eq_above, Draft.read_above]
  rfl

theorem Closed.ofText_append (h : Closed t) (u : Text) :
    Node.ofText (t ++ u) = Node.ofText t ++ Node.ofText u := by
  rw [Node.ofText_eq_finish, h.read_append, Draft.finish_above, Node.ofText_eq_finish t,
    h.settled.finish_eq, Node.ofText_eq_finish u]

theorem getLast?_scan_append (h : Closed t) (hu : ∀ l ∈ (scan u).getLast?, l.closed = true) :
    ∀ l ∈ (scan (t ++ u)).getLast?, l.closed = true := by
  intro l hl
  rw [h.scan_append, List.getLast?_append] at hl
  rcases hs : (scan u).getLast? with _ | m
  · rw [hs] at hl
    exact h.closed l hl
  · rw [hs] at hl
    exact hu l (by rw [hs]; exact hl)

theorem settled_above {d : Draft} (h : d.Settled) (ns : List Node) : (d.above ns).Settled := by
  refine ⟨?_, h.text, h.depth⟩
  rw [Draft.above, h.outer]
  rfl

theorem Closed.append (ht : Closed t) (hu : Closed u) : Closed (t ++ u) := by
  refine ⟨getLast?_scan_append ht hu.closed, ?_⟩
  rw [ht.read_append]
  exact settled_above hu.settled _

theorem rests_read (skips : Node → Bool) (t : Text) :
    (({} : Cutter).read skips (scan t)).Rests :=
  Cutter.Rests.read (fun _ _ => rfl) (scannable_scan t).sound skips

theorem ClosedWithout.kept_append (h : ClosedWithout skips t) (u : Text) :
    (({} : Cutter).read skips (scan (t ++ u))).kept =
      (({} : Cutter).read skips (scan u)).kept.above
        (({} : Cutter).read skips (scan t)).kept.nodes := by
  rw [h.toClosed.scan_append, Cutter.read_append, h.settled.kept_read (rests_read skips t)]

theorem ClosedWithout.remaining_append (h : ClosedWithout skips t) (u : Text) :
    remaining skips (t ++ u) = remaining skips t ++ remaining skips u := by
  rw [remaining, h.kept_append, Draft.finish_above, remaining, h.settled.kept.finish_eq, remaining]

theorem ClosedWithout.append (ht : ClosedWithout skips t) (hu : ClosedWithout skips u) :
    ClosedWithout skips (t ++ u) := by
  refine ⟨getLast?_scan_append ht.toClosed hu.closed, ?_, ?_⟩
  · rw [Cutter.whole_read]
    exact (ht.toClosed.append hu.toClosed).settled
  · rw [ht.kept_append]
    exact settled_above hu.settled.kept _

theorem Complete.append (ht : Complete t) (hu : Complete u) : Complete (t ++ u) :=
  fun skips hskips => (ht skips hskips).append (hu skips hskips)

theorem kept_eq_of_unskipped (h : ∀ n ∈ Node.ofText t, skips n = false) :
    (({} : Cutter).read skips (scan t)).kept = ({} : Draft).read (scan t) := by
  refine Cutter.kept_read_of_unskipped rfl fun n hn => h n ?_
  rw [Node.ofText_eq_finish]
  exact Draft.bottom_subset_finish _ hn

theorem remaining_eq_of_unskipped (h : ∀ n ∈ Node.ofText t, skips n = false) :
    remaining skips t = Node.ofText t := by
  rw [remaining, kept_eq_of_unskipped h, Node.ofText_eq_finish]

theorem Closed.closedWithout (ht : Closed t) (h : ∀ n ∈ Node.ofText t, skips n = false) :
    ClosedWithout skips t := by
  refine ⟨ht.closed, ?_, ?_⟩
  · rw [Cutter.whole_read]
    exact ht.settled
  · rw [kept_eq_of_unskipped h]
    exact ht.settled

theorem complete_of_blank (hw : Blank w) : Complete w := by
  have hread : ∀ skips, ({} : Cutter).read skips (w.map .plain) = {} := by
    intro skips
    have hrest : ({} : Cutter).Resting := ⟨rfl, rfl, rfl, rfl⟩
    induction w with
    | nil => rfl
    | cons a w ih =>
      obtain ⟨ha, hw⟩ := blank_cons.mp hw
      exact (congrArg (Cutter.read skips · (w.map .plain)) (hrest.step_blank ha skips false)).trans
        (ih hw)
  intro skips _
  refine ⟨?_, ?_⟩
  · intro l hl
    rw [scan_blank hw] at hl
    obtain ⟨a, -, rfl⟩ := List.mem_map.mp (List.mem_of_getLast? hl)
    rfl
  · rw [scan_blank hw, hread]
    exact ⟨⟨rfl, rfl, rfl⟩, ⟨rfl, rfl, rfl⟩⟩

end Snippet

theorem ofText_eq_remaining (t : Text) : Node.ofText t = remaining (fun _ => false) t :=
  (Snippet.remaining_eq_of_unskipped fun _ _ => rfl).symm

theorem remaining_between {skips : Node → Bool} (hskips : ∀ u, skips (.declaration u) = false)
    {w w' : Text} (hw : Blank w) (hw' : Blank w') (t : Text) :
    remaining skips (w ++ t ++ w') = remaining skips t := by
  have hnil : remaining skips w = [] := by
    have h := remaining_append_blank skips [] hw
    rwa [List.nil_append] at h
  rw [remaining_append_blank skips _ hw',
    (Snippet.complete_of_blank hw skips hskips).remaining_append, hnil, List.nil_append]

theorem ofText_between {w w' : Text} (hw : Blank w) (hw' : Blank w') (t : Text) :
    Node.ofText (w ++ t ++ w') = Node.ofText t := by
  rw [ofText_eq_remaining, remaining_between (fun _ => rfl) hw hw', ofText_eq_remaining]

theorem ofText_trim (t : Text) : Node.ofText (trim t) = Node.ofText t := by
  obtain ⟨w, w', hw, hw', he⟩ := exists_eq_trim t
  conv_rhs => rw [he, ofText_between hw hw']

end Restyle
