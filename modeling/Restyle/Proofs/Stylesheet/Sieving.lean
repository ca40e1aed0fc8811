import Restyle.Proofs.Stylesheet.Joining
import Restyle.Proofs.Stylesheet.Reading

/-! # Cutting out and leaving out

Where no parenthesis is open at a brace, a stylesheet without its outermost
blocks of some kind has the nodes that the whole stylesheet has, less those
blocks. An open parenthesis would hide the semicolons behind a block, and only
if the block is cut out.
-/

namespace Restyle

open Text Lexeme

def closesParens : Nat → List Lexeme → Bool
  | _, [] => true
  | depth, .plain c :: ls =>
    if c = '(' then closesParens (depth + 1) ls
    else if c = ')' then closesParens (depth - 1) ls
    else if c = '{' ∨ c = '}' then depth == 0 && closesParens 0 ls
    else closesParens depth ls
  | depth, _ :: ls => closesParens depth ls

/-- Every parenthesis outside quotes and comments is closed in front of the next brace. -/
def ClosesParens (css : Text) : Prop :=
  closesParens 0 (scan css) = true

instance (css : Text) : Decidable (ClosesParens css) :=
  inferInstanceAs (Decidable (_ = _))

variable {d : Draft} {l : Lexeme} {ls : List Lexeme} {ns : List Node} {n : Node}

namespace Draft

theorem depth_addChar (d : Draft) (c : Char) : (d.addChar c).depth = d.depth := by
  unfold addChar
  split_ifs <;> rfl

theorem depth_eq_zero_of_brace {c : Char} (hc : c = '{' ∨ c = '}')
    (h : closesParens d.depth (.plain c :: ls) = true) : d.depth = 0 := by
  rcases hc with rfl | rfl <;> simp [closesParens] at h <;> exact h.1

theorem closesParens_step (h : closesParens d.depth (l :: ls) = true) :
    closesParens (d.step l).depth ls = true := by
  cases l with
  | quoted t closed => exact h
  | comment t closed => exact h
  | plain c =>
    simp only [step]
    split_ifs with h₁ h₂ h₃ h₄ h₅
    · subst h₁
      simpa [closesParens] using h
    · subst h₂
      simpa [closesParens] using h
    · subst h₃
      simp [closesParens] at h
      exact h.2
    · subst h₄
      have hdepth : d.closeBlock.depth = 0 := by
        have hd := depth_eq_zero_of_brace (Or.inr rfl) h
        unfold closeBlock
        split
        · exact hd
        · rfl
      simp [closesParens] at h
      rw [hdepth]
      exact h.2
    · have hc : ¬ (c = '{' ∨ c = '}') := not_or.mpr ⟨h₃, h₄⟩
      have hdepth : d.closeDeclaration.depth = d.depth := rfl
      rw [hdepth]
      simpa [closesParens, h₁, h₂, hc] using h
    · have hc : ¬ (c = '{' ∨ c = '}') := not_or.mpr ⟨h₃, h₄⟩
      rw [depth_addChar]
      simpa [closesParens, h₁, h₂, hc] using h

theorem bottom_step_of_not_ends (d : Draft) {c : Char}
    (hc : ¬ (c = '{' ∨ c = '}' ∨ c = ';' ∧ d.depth = 0)) :
    (d.step (.plain c)).bottom = d.bottom := by
  simp only [not_or] at hc
  simp only [step, hc, if_false, addChar]
  split_ifs <;> rfl

end Draft

namespace Cutter

variable {skips : Node → Bool} {c : Cutter}

/-- Behind a lexeme a draft begins anew, with what is left of the nodes that it ended. -/
structure Renews (skips : Node → Bool) (d : Draft) (begun : Bool) (l : Lexeme) : Prop where
  begins : begins begun d.depth l = false
  step : ∃ ns, d.step l = ({} : Draft).above ns ∧
    ns.filter (!skips ·) = if cuts skips d l then [] else ns

structure GoesOn (skips : Node → Bool) (d : Draft) (begun : Bool) (l : Lexeme) : Prop where
  cuts : cuts skips d l = false
  bottom : (d.step l).bottom = []
  begins : (d.step l).outer = [] → begins begun d.depth l = true

variable {begun : Bool}

theorem renews_or_goesOn_of_close (hd : d.bottom = []) (hdepth : d.depth = 0) :
    Renews skips d begun (.plain '}') ∨ GoesOn skips d begun (.plain '}') := by
  have hbegins : begins begun d.depth (.plain '}') = false := rfl
  rcases ho : d.outer with _ | ⟨f, _ | ⟨g, outer⟩⟩
  · have hnodes : d.nodes = [] := (Draft.bottom_of_outer_eq_nil ho).symm.trans hd
    have hcuts : cuts skips d (.plain '}') = false := by rw [cuts, ho]
    refine Or.inl ⟨hbegins, [], ?_, by simp⟩
    obtain ⟨outer, nodes, text, depth⟩ := d
    obtain ⟨rfl, rfl, rfl⟩ : outer = [] ∧ nodes = [] ∧ depth = 0 := ⟨ho, hnodes, hdepth⟩
    rfl
  · have hbefore : f.before = [] := by
      rw [Draft.bottom, ho] at hd
      exact hd
    have hstep : d.step (.plain '}') =
        ({} : Draft).above [.block f.selector d.flushed.reverse] :=
      (Draft.closeBlock_of_cons ho).trans (by rw [hbefore]; rfl)
    have hcuts : cuts skips d (.plain '}') = skips (.block f.selector d.flushed.reverse) := by
      rw [cuts, ho]
      exact Bool.true_and _
    refine Or.inl ⟨hbegins, _, hstep, ?_⟩
    rw [hcuts]
    cases hskip : skips (.block f.selector d.flushed.reverse) <;> simp [hskip]
  · obtain ⟨e, he⟩ : ∃ e, (g :: outer).getLast? = some e := ⟨_, List.getLast?_cons⟩
    have hstep : d.step (.plain '}') =
        { outer := g :: outer, nodes := .block f.selector d.flushed.reverse :: f.before } :=
      Draft.closeBlock_of_cons ho
    rw [Draft.bottom, ho, List.getLast?_cons_cons, he] at hd
    refine Or.inr ⟨by rw [cuts, ho], ?_, fun houter => ?_⟩
    · rw [hstep, Draft.bottom, he]
      exact hd
    · rw [hstep] at houter
      exact absurd houter (List.cons_ne_nil _ _)

theorem renews_of_closeDeclaration (hskips : ∀ t, skips (.declaration t) = false)
    (hd : d.bottom = []) {c : Char} (hend : c = ';' ∧ d.depth = 0) (ho : d.outer = []) :
    Renews skips d begun (.plain c) := by
  have hnodes : d.nodes = [] := (Draft.bottom_of_outer_eq_nil ho).symm.trans hd
  have hflushed : d.flushed.filter (!skips ·) = d.flushed := by
    rw [Draft.flushed, hnodes]
    split
    · rfl
    · simp [hskips]
  obtain ⟨rfl, hdepth⟩ := hend
  have hcuts : cuts skips d (.plain ';') = false := cuts_of_ne (by simp)
  refine ⟨by simp [begins, hdepth], d.flushed, ?_, by rw [hflushed, hcuts]; rfl⟩
  have hstep : d.step (.plain ';') = d.closeDeclaration := by simp [Draft.step, hdepth]
  rw [hstep, Draft.closeDeclaration, Draft.above]
  obtain ⟨outer, nodes, text, depth⟩ := d
  obtain ⟨rfl, rfl⟩ : outer = [] ∧ depth = 0 := ⟨ho, hdepth⟩
  rfl

theorem renews_or_goesOn_of_semicolon (hskips : ∀ t, skips (.declaration t) = false)
    (hd : d.bottom = []) {c : Char} (hend : c = ';' ∧ d.depth = 0) :
    Renews skips d begun (.plain c) ∨ GoesOn skips d begun (.plain c) := by
  by_cases ho : d.outer = []
  · exact Or.inl (renews_of_closeDeclaration hskips hd hend ho)
  · have houter : (d.step (.plain c)).outer = d.outer :=
      d.outer_step_of_ne (by rw [hend.1]; decide) (by rw [hend.1]; decide)
    refine Or.inr ⟨cuts_of_ne (by simp [hend.1]), ?_, fun ho' => ?_⟩
    · exact (Draft.bottom_eq_of_outer_eq houter ho).trans hd
    · exact absurd (houter.symm.trans ho') ho

theorem renews_or_goesOn_of_char (hd : d.bottom = [])
    (hrest : d.outer = [] → begun = false → d = {}) {c : Char}
    (hends : ¬ (c = '{' ∨ c = '}' ∨ c = ';' ∧ d.depth = 0)) :
    Renews skips d begun (.plain c) ∨ GoesOn skips d begun (.plain c) := by
  obtain ⟨hopen, hclose, hend⟩ : c ≠ '{' ∧ c ≠ '}' ∧ ¬ (c = ';' ∧ d.depth = 0) := by
    simpa only [not_or] using hends
  have hbegins : begins begun d.depth (.plain c) = (begun || !isBlank c) := by
    simp [begins, hopen, hclose, hend]
  by_cases hblank : d.outer = [] ∧ begun = false ∧ isBlank c = true
  · obtain ⟨ho, rfl, hb⟩ := hblank
    obtain rfl := hrest ho rfl
    exact Or.inl ⟨by rw [hbegins, hb]; rfl, [], Draft.step_blank rfl hb, by simp⟩
  · refine Or.inr ⟨cuts_of_ne (by simpa using hclose),
      (d.bottom_step_of_not_ends hends).trans hd, fun ho => ?_⟩
    rw [hbegins]
    by_contra hb
    simp only [Bool.or_eq_true, Bool.not_eq_true', not_or, Bool.not_eq_true,
      Bool.not_eq_false] at hb
    exact hblank ⟨(d.outer_step_of_ne hopen hclose).symm.trans ho, hb.1, hb.2⟩

theorem renews_or_goesOn (hskips : ∀ t, skips (.declaration t) = false) (hd : d.bottom = [])
    (hrest : d.outer = [] → begun = false → d = {})
    (h : closesParens d.depth (l :: ls) = true) :
    Renews skips d begun l ∨ GoesOn skips d begun l := by
  cases l with
  | quoted t closed => exact Or.inr ⟨cuts_of_ne (by simp), hd, fun _ => rfl⟩
  | comment t closed => exact Or.inr ⟨cuts_of_ne (by simp), hd, fun _ => rfl⟩
  | plain c =>
    by_cases hends : c = '{' ∨ c = '}' ∨ c = ';' ∧ d.depth = 0
    · rcases hends with rfl | rfl | hend
      · refine Or.inr ⟨cuts_of_ne (by simp), (Draft.bottom_openBlock d).trans hd, fun ho => ?_⟩
        exact absurd ho (List.cons_ne_nil _ _)
      · exact renews_or_goesOn_of_close hd (Draft.depth_eq_zero_of_brace (Or.inr rfl) h)
      · exact renews_or_goesOn_of_semicolon hskips hd hend
    · exact renews_or_goesOn_of_char hd hrest hends

/-- A cutter that has kept all nodes but those to cut out. -/
structure Sieves (skips : Node → Bool) (c : Cutter) (d : Draft) (ns : List Node) : Prop where
  whole : c.whole = d.above ns
  kept : c.kept = d.above (ns.filter (!skips ·))
  saved : c.saved = ({} : Draft).above (ns.filter (!skips ·))
  bottom : d.bottom = []
  rest : d.outer = [] → c.begun = false → d = {}

theorem Sieves.step (hs : Sieves skips c d ns) (hskips : ∀ t, skips (.declaration t) = false)
    (h : closesParens c.whole.depth (l :: ls) = true) :
    ∃ d' ns', Sieves skips (c.step skips l) d' ns' := by
  have hdepth : c.whole.depth = d.depth := by rw [hs.whole]; rfl
  have hcuts : cuts skips c.whole l = cuts skips d l := by rw [hs.whole, cuts_above]
  have hwhole : c.whole.step l = (d.step l).above ns := by rw [hs.whole, Draft.step_above]
  have hkept : c.kept.step l = (d.step l).above (ns.filter (!skips ·)) := by
    rw [hs.kept, Draft.step_above]
  have hempty : (c.whole.step l).outer.isEmpty = (d.step l).outer.isEmpty := by
    rw [hwhole]
    exact Draft.framesAbove_isEmpty ns _
  rw [hdepth] at h
  rcases renews_or_goesOn hskips hs.bottom hs.rest h with hr | hg
  · obtain ⟨ms, hstep, hms⟩ := hr.step
    refine ⟨{}, ms ++ ns, ?_⟩
    have hk : (c.step skips l).kept = ({} : Draft).above ((ms ++ ns).filter (!skips ·)) := by
      rw [List.filter_append, hms]
      simp only [Cutter.step, hcuts]
      split_ifs
      · rw [hs.saved, List.nil_append]
      · rw [hkept, hstep]
        rfl
    refine ⟨?_, hk, ?_, rfl, fun _ _ => rfl⟩
    · exact hwhole.trans (by rw [hstep]; rfl)
    · rw [← hk]
      simp [Cutter.step, hempty, hstep, hdepth, hr.begins, Draft.above, Draft.framesAbove]
  · refine ⟨d.step l, ns, hwhole, ?_, ?_, hg.bottom, fun ho hb => ?_⟩
    · simp only [Cutter.step, hcuts, hg.cuts]
      exact hkept
    · have hn : ¬ ((c.whole.step l).outer.isEmpty && !begins c.begun c.whole.depth l) = true := by
        rw [hempty, hdepth, Bool.and_eq_true, List.isEmpty_iff]
        rintro ⟨ho, hb⟩
        simp [hg.begins ho] at hb
      simp only [Cutter.step, if_neg hn]
      exact hs.saved
    · have hb' : begins c.begun d.depth l = false := hdepth ▸ hb
      rw [hg.begins ho] at hb'
      exact absurd hb' (by simp)

theorem Sieves.read (hs : Sieves skips c d ns) (hskips : ∀ t, skips (.declaration t) = false)
    (h : closesParens c.whole.depth ls = true) :
    ∃ d' ns', Sieves skips (c.read skips ls) d' ns' := by
  induction ls generalizing c d ns with
  | nil => exact ⟨d, ns, hs⟩
  | cons l ls ih =>
    obtain ⟨d', ns', hs'⟩ := hs.step hskips h
    exact ih hs' (Draft.closesParens_step h)

theorem finish_of_bottomless (hd : d.bottom = []) :
    d.finish = [] ∨ ∃ t, d.finish = [.declaration t] := by
  rw [Draft.bottom] at hd
  rw [Draft.finish]
  rcases ho : d.outer.getLast? with _ | f <;> rw [ho] at hd
  · have hnodes : d.nodes = [] := hd
    rw [Draft.flushed, hnodes]
    dsimp only
    split_ifs
    · exact Or.inl rfl
    · exact Or.inr ⟨_, rfl⟩
  · have hbefore : f.before = [] := hd
    exact Or.inl (by simp [hbefore])

end Cutter

/-- Where parentheses are closed in front of braces, cutting out outermost blocks leaves out their
nodes and changes nothing else. -/
theorem remaining_eq_filter {skips : Node → Bool} (hskips : ∀ t, skips (.declaration t) = false)
    {css : Text} (h : ClosesParens css) :
    remaining skips css = (Node.ofText css).filter (!skips ·) := by
  have h₀ : Cutter.Sieves skips {} {} [] := ⟨rfl, rfl, rfl, rfl, fun _ _ => rfl⟩
  obtain ⟨d, ns, hs⟩ := h₀.read hskips h
  have hwhole : ({} : Draft).read (scan css) = d.above ns := by
    rw [← hs.whole, Cutter.whole_read]
  have hfinish : d.finish.filter (!skips ·) = d.finish := by
    rcases Cutter.finish_of_bottomless hs.bottom with hf | ⟨t, hf⟩ <;> simp [hf, hskips]
  rw [remaining, hs.kept, Node.ofText_eq_finish, hwhole, Draft.finish_above, Draft.finish_above,
    List.filter_append, hfinish, List.filter_reverse]

end Restyle
