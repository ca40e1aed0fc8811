import Restyle.Proofs.Conversion.Indenting
import Restyle.Proofs.Stylesheet.Joining
import Restyle.Proofs.Text.Words

/-! # Reading what is spaced differently

Where white space is exchanged for other white space, the lexemes stay the same
but for the white space in and between them: what a backslash shields, what ends
a quoted text and what opens a comment does not depend on the kind of white
space. So the nodes are the same up to white space.
-/

namespace Restyle

open Text

namespace Lexeme

inductive Becomes : Lexeme → Lexeme → Prop
  | plain {c : Char} (hc : isBlank c = false) : Becomes (.plain c) (.plain c)
  | quoted {c : Char} {t u : Text} (closed : Bool) (hc : isBlank c = false) (h : Wraps c t u) :
      Becomes (.quoted (c :: t) closed) (.quoted (c :: u) closed)
  | comment {c : Char} {t u : Text} (closed : Bool) (hc : isBlank c = false) (h : Wraps c t u) :
      Becomes (.comment (c :: t) closed) (.comment (c :: u) closed)

/-- Lexemes behind a character and what becomes of them: each begins visibly, with white space in
front of it. -/
inductive Respaced : Char → List Lexeme → List Lexeme → Prop
  | nil (b : Char) : Respaced b [] []
  | cons {b : Char} {w w' : Text} {l m : Lexeme} {ls ms : List Lexeme} (hw : Blank w)
      (hw' : Blank w') (hnil : w' = [] ↔ w = []) (hkept : w' = w ↔ keepsBlanks b w = true)
      (hl : Becomes l m) (h : Respaced (l.text.getLastD b) ls ms) :
      Respaced b (w.map .plain ++ l :: ls) (w'.map .plain ++ m :: ms)

variable {a b c q : Char} {t u v v' w w' seen seen' : Text} {l m : Lexeme} {ls ms : List Lexeme}

theorem scan_blank_append (hw : Blank w) (t : Text) : scan (w ++ t) = w.map plain ++ scan t :=
  scan_plain_append (fun _ hc => hw.notMem hc (by decide)) t

theorem scanQuoted_blank_append (hq : isBlank q = false) (hw : Blank w) (seen t : Text) :
    scanQuoted q seen (w ++ t) = scanQuoted q (w.reverse ++ seen) t :=
  scanQuoted_append (fun hmem => hw.ne_of_mem hmem hq rfl)
    (fun hmem => hw.ne_of_mem hmem (by decide) rfl) seen t

theorem scanComment_blank_append (hw : Blank w) (seen t : Text) :
    scanComment seen (w ++ t) = scanComment (w.reverse ++ seen) t :=
  scanComment_append (fun hmem => hw.ne_of_mem hmem (by decide) rfl) seen t

/-- What a reader takes that is inside a lexeme which begins with a character. -/
def Goes (lexeme : Text → Bool → Lexeme) (a : Char) (ls ms : List Lexeme) : Prop :=
  ∃ x x' closed ls' ms', ls = lexeme (a :: x) closed :: ls' ∧ ms = lexeme (a :: x') closed :: ms' ∧
    Wraps a x x' ∧ Respaced (x.getLastD a) ls' ms'

/-- What is read of a text behind a character and of what becomes of it, outside of every lexeme and
inside of one. -/
structure Rereads (b : Char) (t u : Text) : Prop where
  scan : Respaced b (scan t) (scan u)
  quoted : ∀ {q seen seen' v v'}, (q = '"' ∨ q = '\'') → seen.reverse = q :: v →
    seen'.reverse = q :: v' → Wraps q v v' → v.getLastD q = b →
      Goes .quoted q (scanQuoted q seen t) (scanQuoted q seen' u)
  comment : ∀ {seen seen' v v'}, seen.reverse = '/' :: v → seen'.reverse = '/' :: v' →
    Wraps '/' v v' → v.getLastD '/' = b → Goes .comment '/' (scanComment seen t) (scanComment seen' u)

namespace Rereads

theorem nil (b : Char) : Rereads b [] [] where
  scan := by
    rw [Lexeme.scan]
    exact .nil b
  quoted _ hseen hseen' hv _ := by
    rw [scanQuoted, scanQuoted, hseen, hseen']
    exact ⟨_, _, false, [], [], rfl, rfl, hv, .nil _⟩
  comment hseen hseen' hv _ := by
    rw [scanComment, scanComment, hseen, hseen']
    exact ⟨_, _, false, [], [], rfl, rfl, hv, .nil _⟩

end Rereads

/-- What a backslash shields matters only if it is visible. -/
theorem scanQuoted_step (hq : isBlank q = false) (hc : c ≠ q)
    (ht : c = '\\' → ∀ d ∈ t.head?, isBlank d = true) (seen : Text) :
    scanQuoted q seen (c :: t) = scanQuoted q (c :: seen) t := by
  by_cases hshield : c = '\\'
  · rcases t with _ | ⟨d, t⟩
    · exact scanQuoted_char hc fun _ => rfl
    · have hd : Blank [d] := by
        rw [blank_cons]
        exact ⟨ht hshield d rfl, .nil⟩
      have hblank := scanQuoted_blank_append hq hd (c :: seen) t
      rw [hshield] at hblank ⊢
      rw [scanQuoted_shield]
      exact hblank.symm
  · exact scanQuoted_char hc (absurd · hshield)

section Step

/-! A visible character with white space in front of it, where what is no longer than the rest is known
to be read alike. -/

variable (hw : Blank w) (hw' : Blank w') (hnil : w' = [] ↔ w = [])
  (hkept : w' = w ↔ keepsBlanks b w = true) (hc : isBlank c = false) (h : Wraps c t u)
  (ih : ∀ {b t' u'}, t'.length ≤ t.length → Wraps b t' u' → Rereads b t' u')

include hw hw' hnil hkept hc in
theorem wraps_run {x x' : Text} (hx : Wraps a x x') (hb : x.getLastD a = b) :
    Wraps a (x ++ w ++ [c]) (x' ++ w' ++ [c]) := by
  rw [List.append_assoc, List.append_assoc]
  exact hx.append (hb ▸ .cons hw hw' hnil hkept hc (.nil c))

include hw hw' hnil hkept hc h ih

theorem respaced_step : Respaced b (scan (w ++ c :: t)) (scan (w' ++ c :: u)) := by
  rw [scan_blank_append hw, scan_blank_append hw']
  by_cases hcomment : c = '/' ∧ t.head? = some '*'
  · obtain ⟨rfl, hhead⟩ := hcomment
    obtain ⟨t, rfl⟩ := List.head?_eq_some_iff.mp hhead
    obtain ⟨u, rfl, hrest⟩ := h.of_visible (by decide)
    have hgoes : Goes .comment '/' (scanComment ['*', '/'] t) (scanComment ['*', '/'] u) :=
      (ih (Nat.le_succ _) hrest).comment rfl rfl (.visible (by decide) (.nil _)) rfl
    obtain ⟨x, x', closed, ls, ms, hls, hms, hx, hnext⟩ := hgoes
    rw [scan.eq_2, scan.eq_2, hls, hms]
    refine .cons hw hw' hnil hkept (.comment closed hc hx) ?_
    rwa [text, List.getLastD_cons]
  · have hcomment' : ¬ (c = '/' ∧ u.head? = some '*') := by
      rwa [h.head?_eq_some_iff (by decide)]
    by_cases hquote : c = '"' ∨ c = '\''
    · have hgoes : Goes .quoted c (scanQuoted c [c] t) (scanQuoted c [c] u) :=
        (ih (Nat.le_refl _) h).quoted hquote rfl rfl (.nil c) rfl
      obtain ⟨x, x', closed, ls, ms, hls, hms, hx, hrest⟩ := hgoes
      rw [scan_quote hquote, scan_quote hquote, hls, hms]
      refine .cons hw hw' hnil hkept (.quoted closed hc hx) ?_
      rwa [text, List.getLastD_cons]
    · rw [scan_eq_plain hcomment hquote, scan_eq_plain hcomment' hquote]
      exact .cons hw hw' hnil hkept (.plain hc) (ih (Nat.le_refl _) h).scan

theorem goes_quoted_step (hq : q = '"' ∨ q = '\'') (hseen : seen.reverse = q :: v)
    (hseen' : seen'.reverse = q :: v') (hv : Wraps q v v') (hb : v.getLastD q = b) :
    Goes .quoted q (scanQuoted q seen (w ++ c :: t)) (scanQuoted q seen' (w' ++ c :: u)) := by
  have hvisible : isBlank q = false := by rcases hq with rfl | rfl <;> decide
  have hne : q ≠ '\\' := by rcases hq with rfl | rfl <;> decide
  have htail := ih (Nat.le_refl _) h
  have hrun := wraps_run hw hw' hnil hkept hc hv hb
  rw [scanQuoted_blank_append hvisible hw, scanQuoted_blank_append hvisible hw']
  by_cases hcq : c = q
  · subst hcq
    rw [scanQuoted_end hne, scanQuoted_end hne]
    refine ⟨v ++ w ++ [c], v' ++ w' ++ [c], true, scan t, scan u, ?_, ?_, hrun, ?_⟩
    · simp [hseen]
    · simp [hseen']
    · simpa using htail.scan
  · by_cases hshield : c = '\\' ∧ ∃ d, t.head? = some d ∧ isBlank d = false
    · obtain ⟨rfl, d, hhead, hd⟩ := hshield
      obtain ⟨t, rfl⟩ := List.head?_eq_some_iff.mp hhead
      obtain ⟨u, rfl, hrest⟩ := h.of_visible hd
      rw [scanQuoted_shield, scanQuoted_shield]
      have hnext := hrun.append (.visible hd (.nil d))
      exact (ih (Nat.le_succ _) hrest).quoted hq (by simp [hseen]) (by simp [hseen']) hnext (by simp)
    · have ht : c = '\\' → ∀ d ∈ t.head?, isBlank d = true := by
        intro he d hd
        by_contra hblank
        exact hshield ⟨he, d, hd, by simpa using hblank⟩
      have hu : c = '\\' → ∀ d ∈ u.head?, isBlank d = true := by
        intro he d hd
        by_contra hblank
        have hd' : isBlank d = false := by simpa using hblank
        exact hblank (ht he d ((h.head?_eq_some_iff hd').mp hd))
      rw [scanQuoted_step hvisible hcq ht, scanQuoted_step hvisible hcq hu]
      exact htail.quoted hq (by simp [hseen]) (by simp [hseen']) hrun (by simp)

theorem goes_comment_step (hseen : seen.reverse = '/' :: v) (hseen' : seen'.reverse = '/' :: v')
    (hv : Wraps '/' v v') (hb : v.getLastD '/' = b) :
    Goes .comment '/' (scanComment seen (w ++ c :: t)) (scanComment seen' (w' ++ c :: u)) := by
  have hrun := wraps_run hw hw' hnil hkept hc hv hb
  rw [scanComment_blank_append hw, scanComment_blank_append hw']
  by_cases hend : c = '*' ∧ t.head? = some '/'
  · obtain ⟨rfl, hhead⟩ := hend
    obtain ⟨t, rfl⟩ := List.head?_eq_some_iff.mp hhead
    obtain ⟨u, rfl, hrest⟩ := h.of_visible (by decide)
    rw [scanComment_end, scanComment_end]
    have hnext := hrun.append (.visible (c := '/') (by decide) (.nil _))
    refine ⟨v ++ w ++ ['*'] ++ ['/'], v' ++ w' ++ ['*'] ++ ['/'], true, scan t, scan u, ?_, ?_,
      hnext, ?_⟩
    · simp [hseen]
    · simp [hseen']
    · simpa using (ih (Nat.le_succ _) hrest).scan
  · have hend' : ¬ (c = '*' ∧ u.head? = some '/') := by
      rwa [h.head?_eq_some_iff (by decide)]
    rw [scanComment_char hend, scanComment_char hend']
    exact (ih (Nat.le_refl _) h).comment (by simp [hseen]) (by simp [hseen']) hrun (by simp)

end Step

theorem rereads_of_wraps (h : Wraps b t u) : Rereads b t u := by
  induction hn : t.length using Nat.strong_induction_on generalizing b t u with
  | _ n ih =>
    cases h with
    | nil => exact .nil b
    | @cons _ c w w' t u hw hw' hnil hkept hc h =>
      have hlen : t.length < n := by
        rw [← hn, List.length_append, List.length_cons]
        omega
      have hrest : ∀ {b t' u'}, t'.length ≤ t.length → Wraps b t' u' → Rereads b t' u' :=
        fun hle h' => ih _ (hle.trans_lt hlen) h' rfl
      exact ⟨respaced_step hw hw' hnil hkept hc h hrest,
        goes_quoted_step hw hw' hnil hkept hc h hrest, goes_comment_step hw hw' hnil hkept hc h hrest⟩

theorem respaced_scan (h : Wraps b t u) : Respaced b (scan t) (scan u) :=
  (rereads_of_wraps h).scan

end Lexeme

mutual

def Node.spaced : Node → Node
  | .declaration t => .declaration (Text.spaced t)
  | .block selector body => .block (Text.spaced selector) (spacedAll body)

def Node.spacedAll : List Node → List Node
  | [] => []
  | n :: ns => n.spaced :: spacedAll ns

end

theorem Node.spacedAll_eq_map (ns : List Node) : spacedAll ns = ns.map spaced := by
  induction ns with
  | nil => rfl
  | cons n ns ih => rw [spacedAll, ih, List.map_cons]

namespace Draft

def Frame.spaced (f : Frame) : List Node × Text :=
  (f.before.map Node.spaced, Text.spaced f.selector)

structure Respaces (d e : Draft) : Prop where
  outer : e.outer.map Frame.spaced = d.outer.map Frame.spaced
  nodes : e.nodes.map Node.spaced = d.nodes.map Node.spaced
  text : squeezeBlanks e.text.reverse = squeezeBlanks d.text.reverse
  depth : e.depth = d.depth

variable {d e : Draft} {c : Char} {t u w w' : Text} {l m : Lexeme} {ls ms : List Lexeme}

theorem read_blank (hw : Blank w) (d : Draft) :
    d.read (w.map .plain) = if d.text = [] then d else d.add w := by
  induction w generalizing d with
  | nil => exact (ite_self d).symm
  | cons c w ih =>
    obtain ⟨hc, hw⟩ := blank_cons.mp hw
    have hread : d.read ((c :: w).map .plain) = (d.step (.plain c)).read (w.map .plain) := rfl
    rw [hread]
    by_cases ht : d.text = []
    · rw [step_blank ht hc, ih hw, if_pos ht, if_pos ht]
    · have hstep : d.step (.plain c) = d.add [c] := by
        rw [step_of_blank d hc, addChar, if_neg (by simp [ht])]
      rw [hstep, ih hw, if_neg ht, if_neg (by simp [add])]
      simp [add]

namespace Respaces

theorem text_eq_nil_iff (h : d.Respaces e) : e.text = [] ↔ d.text = [] := by
  rw [← List.reverse_eq_nil_iff, ← squeezeBlanks_eq_nil_iff, h.text, squeezeBlanks_eq_nil_iff,
    List.reverse_eq_nil_iff]

theorem words_text (h : d.Respaces e) : words e.text.reverse = words d.text.reverse := by
  rw [← words_squeezeBlanks, h.text, words_squeezeBlanks]

theorem spaced_trim_text (h : d.Respaces e) :
    spaced (trim e.text.reverse) = spaced (trim d.text.reverse) := by
  rw [spaced, words_trim, h.words_text, spaced, words_trim]

theorem flushed (h : d.Respaces e) : e.flushed.map Node.spaced = d.flushed.map Node.spaced := by
  have hempty : trim e.text.reverse = [] ↔ trim d.text.reverse = [] := by
    rw [trim_eq_nil_iff, trim_eq_nil_iff, ← words_eq_nil_iff, ← words_eq_nil_iff, h.words_text]
  simp only [Draft.flushed, List.isEmpty_iff, hempty]
  split_ifs
  · exact h.nodes
  · rw [List.map_cons, List.map_cons, h.nodes, Node.spaced, Node.spaced, h.spaced_trim_text]

theorem add (h : d.Respaces e)
    (ht : ∀ inRun, squeeze isBlank ' ' inRun u = squeeze isBlank ' ' inRun t) :
    (d.add t).Respaces (e.add u) := by
  refine ⟨h.outer, h.nodes, ?_, h.depth⟩
  have htext := squeezeBlanks_append_congr h.text ht
  simpa [Draft.add] using htext

theorem read_blank (h : d.Respaces e) (hw : Blank w) (hw' : Blank w') (hnil : w' = [] ↔ w = []) :
    (d.read (w.map .plain)).Respaces (e.read (w'.map .plain)) := by
  rw [Draft.read_blank hw, Draft.read_blank hw']
  by_cases ht : d.text = []
  · rwa [if_pos ht, if_pos (h.text_eq_nil_iff.mpr ht)]
  · rw [if_neg ht, if_neg (mt h.text_eq_nil_iff.mp ht)]
    refine h.add fun inRun => ?_
    have hrun := squeeze_blank_append hw inRun []
    have hrun' := squeeze_blank_append hw' inRun []
    simp only [List.append_nil, squeeze, hnil] at hrun hrun'
    rw [hrun, hrun']

theorem closeBlock (h : d.Respaces e) : d.closeBlock.Respaces e.closeBlock := by
  have houter := h.outer
  rcases hd : d.outer with _ | ⟨f, outer⟩ <;> rw [hd] at houter
  · have he : e.outer = [] := List.map_eq_nil_iff.mp houter
    simp only [Draft.closeBlock, hd, he]
    exact ⟨rfl, h.nodes, rfl, h.depth⟩
  · obtain ⟨g, outer', he, hframe, houter⟩ := List.map_eq_cons_iff.mp houter
    obtain ⟨hbefore, hselector⟩ := Prod.mk.inj hframe
    have hbody := congrArg List.reverse h.flushed
    simp only [Draft.closeBlock, hd, he]
    refine ⟨houter, ?_, rfl, rfl⟩
    rw [List.map_cons, List.map_cons, hbefore, Node.spaced, Node.spaced, hselector,
      Node.spacedAll_eq_map, Node.spacedAll_eq_map, List.map_reverse, hbody, List.map_reverse]

theorem step (h : d.Respaces e) (hl : l.Becomes m) : (d.step l).Respaces (e.step m) := by
  cases hl with
  | quoted closed hc ht =>
    refine h.add fun inRun => ?_
    rw [squeeze_visible hc, squeeze_visible hc]
    exact congrArg (_ :: ·) (ht.squeeze_eq false)
  | comment closed hc ht => exact h
  | @plain c hc =>
    have hadd : (d.add [c]).Respaces (e.add [c]) := h.add fun _ => rfl
    simp only [Draft.step, h.depth]
    split_ifs
    · exact ⟨hadd.outer, hadd.nodes, hadd.text, rfl⟩
    · exact ⟨hadd.outer, hadd.nodes, hadd.text, rfl⟩
    · refine ⟨?_, rfl, rfl, rfl⟩
      rw [openBlock, openBlock, List.map_cons, List.map_cons, h.outer, Frame.spaced, Frame.spaced,
        h.nodes, h.spaced_trim_text]
    · exact h.closeBlock
    · exact ⟨h.outer, h.flushed, rfl, h.depth⟩
    · simpa [addChar, hc] using hadd

theorem read (h : d.Respaces e) {b : Char} (hls : Lexeme.Respaced b ls ms) :
    (d.read ls).Respaces (e.read ms) := by
  induction hls generalizing d e with
  | nil => exact h
  | cons hw hw' hnil _ hl _ ih =>
    rw [read_append, read_append]
    exact ih ((h.read_blank hw hw' hnil).step hl)

theorem finish (h : d.Respaces e) : e.finish.map Node.spaced = d.finish.map Node.spaced := by
  have hlast := congrArg List.getLast? h.outer
  rw [List.getLast?_map, List.getLast?_map] at hlast
  rw [Draft.finish, Draft.finish]
  rcases hd : d.outer.getLast? with _ | f <;> rcases he : e.outer.getLast? with _ | g <;>
    simp only [hd, he, Option.map_none, Option.map_some, Option.some.injEq, reduceCtorEq] at hlast
  · rw [List.map_reverse, h.flushed, List.map_reverse]
  · rw [List.map_reverse, (Prod.mk.inj hlast).1, List.map_reverse]

end Respaces

end Draft

/-- The nodes stay the same up to white space. -/
theorem Text.Wraps.ofText_eq {b : Char} {t u : Text} (h : Wraps b t u) :
    (Node.ofText u).map Node.spaced = (Node.ofText t).map Node.spaced := by
  have hfresh : ({} : Draft).Respaces {} := ⟨rfl, rfl, rfl, rfl⟩
  rw [Node.ofText_eq_finish, Node.ofText_eq_finish]
  exact (hfresh.read (Lexeme.respaced_scan h)).finish

end Restyle
