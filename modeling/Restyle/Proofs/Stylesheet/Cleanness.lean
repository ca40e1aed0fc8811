import Restyle.Proofs.Stylesheet.Head
import Restyle.Proofs.Stylesheet.Sieving

/-! # Clean nodes

The blocks of a stylesheet without comments, whose parentheses are closed in
front of braces, have clean selectors, and so have the blocks in them, whose
declarations are clean as well. Of the outermost declarations only the last may
be left open.
-/

namespace Restyle

open Text Lexeme

def Lexeme.isComment : Lexeme → Bool
  | comment _ _ => true
  | _ => false

def Uncommented (css : Text) : Prop :=
  ∀ l ∈ scan css, l.isComment = false

instance (css : Text) : Decidable (Uncommented css) :=
  decidable_of_iff ((scan css).all (!·.isComment) = true) (by simp [Uncommented])

mutual

/-- A declaration that is clean, or a block with a clean selector and clean nodes in it. -/
def Node.Clean : Node → Prop
  | .declaration t => Restyle.Clean t
  | .block selector body => Restyle.Clean selector ∧ CleanAll body

def Node.CleanAll : List Node → Prop
  | [] => True
  | n :: ns => n.Clean ∧ CleanAll ns

end

theorem Node.cleanAll_iff {ns : List Node} : CleanAll ns ↔ ∀ n ∈ ns, n.Clean := by
  induction ns with
  | nil => simp [CleanAll]
  | cons n ns ih => rw [CleanAll, ih, List.forall_mem_cons]

theorem Pointer.run?_of_outside {s : Pointer} {t : Text} (hs : s.Outside)
    (h : s.mode = .slash → t.head? ≠ some '*') (hne : t ≠ []) :
    s.run? t = run? ⟨.plain, s.depth⟩ t := by
  obtain ⟨m, depth⟩ := s
  rcases hs with hm | hm
  · obtain rfl : m = .plain := hm
    rfl
  · obtain rfl : m = .slash := hm
    exact run?_slash (h rfl) hne depth

namespace Draft

variable {d : Draft} {l : Lexeme} {ls : List Lexeme} {c : Char} {t : Text}

/-- The text since the last node leaves no more open than the draft says, and does not open a
comment with what comes next. -/
def Reads (d : Draft) (ls : List Lexeme) : Prop :=
  ∃ s : Pointer, Pointer.run? {} d.text.reverse = some s ∧ s.Outside ∧ s.depth = d.depth ∧
    (s.mode = .slash → ls.head? ≠ some (.plain '*'))

theorem reads_of_text_eq_nil (ht : d.text = []) (hd : d.depth = 0) (ls : List Lexeme) :
    d.Reads ls := by
  refine ⟨{}, by rw [ht]; rfl, Or.inl rfl, hd.symm, fun h => ?_⟩
  cases h

theorem Reads.clean (h : d.Reads ls) (hd : d.depth = 0) (hs : SingleReturns d.text.reverse) :
    Clean (trim d.text.reverse) := by
  obtain ⟨s, hrun, hout, hdepth, -⟩ := h
  refine ⟨?_, trimmed_trim _, singleReturns_trim hs⟩
  rw [Pointer.leaves_trim]
  exact ⟨s, hrun, hout, hdepth.trans hd⟩

theorem Reads.quoted (h : d.Reads (.quoted t true :: ls)) (hl : (Lexeme.quoted t true).Sound)
    (ms : List Lexeme) : (d.add t).Reads ms := by
  obtain ⟨s, hrun, hout, hdepth, -⟩ := h
  have hquoted : Pointer.run? ⟨.plain, s.depth⟩ t = some ⟨.plain, s.depth⟩ :=
    Pointer.leaves_quoted hl s.depth
  have hhead : t.head? ≠ some '*' := fun hstar => by
    have heq := hl.eq_plain hstar
    cases heq
  refine ⟨⟨.plain, s.depth⟩, ?_, Or.inl rfl, hdepth, fun hm => by cases hm⟩
  rw [add, List.reverse_append, List.reverse_reverse, Pointer.run?_append, hrun, Option.bind_some,
    Pointer.run?_of_outside hout (fun _ => hhead) hl.text_ne_nil, hquoted]

theorem Reads.plain (h : d.Reads (.plain c :: ls)) (hl : (Lexeme.plain c).Sound)
    (hc : ¬ (c = '{' ∨ c = '}' ∨ c = ';' ∧ d.depth = 0))
    (hslash : c = '/' → ls.head? ≠ some (.plain '*')) :
    ({ d.add [c] with depth := parensBehind d.depth [c] } : Draft).Reads ls := by
  obtain ⟨s, hrun, hout, hdepth, hstar⟩ := h
  obtain ⟨hdouble, hsingle⟩ := not_or.mp hl.not_quote
  have hhead : s.mode = .slash → ([c] : Text).head? ≠ some '*' := by
    rintro hm hc
    obtain rfl := Option.some.inj hc
    exact hstar hm rfl
  have hstep : s.run? [c] = Pointer.outside? d.depth c := by
    rw [Pointer.run?_of_outside hout hhead (List.cons_ne_nil c []), hdepth, Pointer.run?,
      Pointer.step?]
    cases Pointer.outside? d.depth c <;> rfl
  obtain ⟨s', hs', hout', hdepth', hmode⟩ : ∃ s', Pointer.outside? d.depth c = some s' ∧
      s'.Outside ∧ s'.depth = parensBehind d.depth [c] ∧ (s'.mode = .slash → c = '/') := by
    by_cases hs : c = '/'
    · subst hs
      exact ⟨_, rfl, Or.inr rfl, rfl, fun _ => rfl⟩
    · simp only [Pointer.outside?, hdouble, hsingle, hs, hc, if_false, parensBehind]
      split_ifs <;> exact ⟨_, rfl, Or.inl rfl, rfl, fun hm => by cases hm⟩
  refine ⟨s', ?_, hout', hdepth', fun hm => hslash (hmode hm)⟩
  rw [← hs', ← hstep]
  simp [add, Pointer.run?_append, hrun]

structure CleanBefore (d : Draft) (ls : List Lexeme) : Prop where
  nodes : ∀ n ∈ d.nodes, n.Clean
  outer : ∀ f ∈ d.outer, Clean f.selector ∧ ∀ n ∈ f.before, n.Clean
  reads : ls ≠ [] → d.Reads ls
  single : SingleReturns (d.text.reverse ++ textOf ls)

namespace CleanBefore

theorem singleReturns_text (h : d.CleanBefore ls) : SingleReturns d.text.reverse :=
  h.single.mono (List.prefix_append _ _).isInfix

theorem flushed (h : d.CleanBefore (l :: ls)) (hd : d.depth = 0) : ∀ n ∈ d.flushed, n.Clean := by
  have hclean := (h.reads (List.cons_ne_nil l ls)).clean hd h.singleReturns_text
  rw [Draft.flushed]
  split_ifs
  · exact h.nodes
  · exact List.forall_mem_cons.mpr ⟨hclean, h.nodes⟩

theorem singleReturns_rest (h : d.CleanBefore (l :: ls)) : SingleReturns (textOf ls) := by
  refine h.single.mono ?_
  rw [textOf_cons, ← List.append_assoc]
  exact (List.suffix_append _ _).isInfix

theorem openBlock (h : d.CleanBefore (l :: ls)) (hd : d.depth = 0) :
    d.openBlock.CleanBefore ls := by
  have hclean := (h.reads (List.cons_ne_nil l ls)).clean hd h.singleReturns_text
  exact ⟨by simp [Draft.openBlock], List.forall_mem_cons.mpr ⟨⟨hclean, h.nodes⟩, h.outer⟩,
    fun _ => reads_of_text_eq_nil rfl rfl ls, h.singleReturns_rest⟩

theorem closeBlock (h : d.CleanBefore (l :: ls)) (hd : d.depth = 0) :
    d.closeBlock.CleanBefore ls := by
  rcases ho : d.outer with _ | ⟨f, outer⟩
  · have hclose : d.closeBlock = { d with text := [] } := by rw [Draft.closeBlock, ho]
    rw [hclose]
    exact ⟨h.nodes, h.outer, fun _ => reads_of_text_eq_nil (d := { d with text := [] }) rfl hd ls,
      h.singleReturns_rest⟩
  · obtain ⟨⟨hselector, hbefore⟩, houter⟩ := List.forall_mem_cons.mp (ho ▸ h.outer)
    rw [closeBlock_of_cons ho]
    refine ⟨List.forall_mem_cons.mpr ⟨⟨hselector, ?_⟩, hbefore⟩, houter,
      fun _ => reads_of_text_eq_nil rfl rfl ls, h.singleReturns_rest⟩
    rw [Node.cleanAll_iff]
    exact fun n hn => h.flushed hd n (List.mem_reverse.mp hn)

theorem closeDeclaration (h : d.CleanBefore (l :: ls)) (hd : d.depth = 0) :
    d.closeDeclaration.CleanBefore ls :=
  ⟨h.flushed hd, h.outer, fun _ => reads_of_text_eq_nil (d := d.closeDeclaration) rfl hd ls,
    h.singleReturns_rest⟩

theorem add (h : d.CleanBefore (l :: ls)) {depth : Nat}
    (hreads : ls ≠ [] → ({ d.add l.text with depth } : Draft).Reads ls) :
    ({ d.add l.text with depth } : Draft).CleanBefore ls := by
  refine ⟨h.nodes, h.outer, hreads, ?_⟩
  have hsingle := h.single
  simpa [Draft.add] using hsingle

theorem addChar (h : d.CleanBefore (.plain c :: ls)) (hl : (Lexeme.plain c).Sound)
    (hc : ¬ (c = '{' ∨ c = '}' ∨ c = ';' ∧ d.depth = 0)) (hparens : c ∉ ['(', ')'])
    (hslash : c = '/' → ls.head? ≠ some (.plain '*')) : (d.addChar c).CleanBefore ls := by
  have hreads := h.reads (List.cons_ne_nil _ ls)
  rw [Draft.addChar]
  split_ifs with hblank
  · rw [Bool.and_eq_true, List.isEmpty_iff] at hblank
    have hdepth : d.depth = 0 := by
      obtain ⟨s, hrun, -, hdepth, -⟩ := hreads
      rw [hblank.1] at hrun
      obtain rfl := Option.some.inj hrun
      exact hdepth.symm
    refine ⟨h.nodes, h.outer, fun _ => reads_of_text_eq_nil hblank.1 hdepth ls, ?_⟩
    rw [hblank.1]
    exact h.singleReturns_rest
  · refine h.add (l := .plain c) fun _ => ?_
    have hadd := hreads.plain hl hc hslash
    rwa [parensBehind_cons hparens, parensBehind] at hadd

theorem step (h : d.CleanBefore (l :: ls)) (hscan : Scannable (l :: ls))
    (hparens : closesParens d.depth (l :: ls) = true) (hcomment : l.isComment = false) :
    (d.step l).CleanBefore ls := by
  have hreads := h.reads (List.cons_ne_nil l ls)
  have hsound := hscan.sound l List.mem_cons_self
  cases l with
  | comment t closed => cases hcomment
  | quoted t closed =>
    refine h.add fun hne => ?_
    obtain ⟨m, ms, rfl⟩ := List.exists_cons_of_ne_nil hne
    obtain ⟨hclosed, -⟩ := (List.isChain_cons_cons.mp hscan.beside).1
    obtain rfl : closed = true := hclosed
    exact hreads.quoted hsound _
  | plain c =>
    have hslash : c = '/' → ls.head? ≠ some (.plain '*') := by
      rintro rfl hhead
      obtain ⟨ms, rfl⟩ := List.head?_eq_some_iff.mp hhead
      exact (List.isChain_cons_cons.mp hscan.beside).1.2 ⟨rfl, rfl⟩
    rw [Draft.step]
    split_ifs with hopen hclose hbrace hbrace' hend
    · subst hopen
      exact h.add (l := .plain '(') fun _ => hreads.plain hsound (by simp) hslash
    · subst hclose
      exact h.add (l := .plain ')') fun _ => hreads.plain hsound (by simp) hslash
    · subst hbrace
      exact h.openBlock (depth_eq_zero_of_brace (Or.inl rfl) hparens)
    · subst hbrace'
      exact h.closeBlock (depth_eq_zero_of_brace (Or.inr rfl) hparens)
    · exact h.closeDeclaration hend.2
    · exact h.addChar hsound (by simp only [hbrace, hbrace', hend, or_self, not_false_iff])
        (by simp [hopen, hclose]) hslash

theorem read (h : d.CleanBefore ls) (hscan : Scannable ls)
    (hparens : closesParens d.depth ls = true) (hcomment : ∀ l ∈ ls, l.isComment = false) :
    (d.read ls).CleanBefore [] := by
  induction ls generalizing d with
  | nil => exact h
  | cons l ls ih =>
    obtain ⟨hl, hls⟩ := List.forall_mem_cons.mp hcomment
    exact ih (h.step hscan hparens hl) hscan.tail (closesParens_step hparens) hls

end CleanBefore

end Draft


/-- All nodes of a stylesheet are clean, apart from the last if it is a declaration. -/
theorem Node.clean_or_declaration {css : Text} (hcomment : Uncommented css) (hparens : ClosesParens css)
    (hs : SingleReturns css) : ∀ n ∈ ofText css, n.Clean ∨ ∃ t, n = .declaration t := by
  have h₀ : ({} : Draft).CleanBefore (scan css) := by
    refine ⟨by simp, by simp, fun _ => Draft.reads_of_text_eq_nil rfl rfl _, ?_⟩
    rwa [textOf_scan]
  have h := h₀.read (scannable_scan css) hparens hcomment
  rw [ofText_eq_finish, Draft.finish]
  generalize ({} : Draft).read (scan css) = d at h
  intro n hn
  rcases ho : d.outer.getLast? with _ | f <;> rw [ho] at hn <;> replace hn := List.mem_reverse.mp hn
  · rw [Draft.flushed] at hn
    split_ifs at hn
    · exact Or.inl (h.nodes n hn)
    · rcases List.mem_cons.mp hn with rfl | hn
      · exact Or.inr ⟨_, rfl⟩
      · exact Or.inl (h.nodes n hn)
  · exact Or.inl ((h.outer f (List.mem_of_getLast? ho)).2 n hn)

end Restyle
