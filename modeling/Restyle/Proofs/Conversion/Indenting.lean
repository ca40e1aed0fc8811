import Restyle.Conversion.Basic
import Restyle.Proofs.Stylesheet.Margin
import Restyle.Proofs.Text.Cut
import Restyle.Proofs.Text.Spacing

/-! # Setting declarations in

Declarations are put on lines of their own by breaking them behind a semicolon
and a space, wherever these stand, and every line is trimmed and set in. So of a
text that ends visibly nothing changes but white space, and white space neither
comes nor goes. What changes is where a line ends or a space follows a
semicolon.
-/

namespace Restyle

namespace Text

/-- Whether no line ends in a text and no space in it follows a semicolon; a character stands before
the text. -/
def keepsBlanks : Char → Text → Bool
  | _, [] => true
  | b, c :: t => !(c == '\n' || (b == ';' && c == ' ')) && keepsBlanks c t

/-- The first text and what becomes of it: visible characters stay, and white space becomes white
space, which is another one where a line ends or a space follows a semicolon. -/
inductive Wraps : Char → Text → Text → Prop
  | nil (b : Char) : Wraps b [] []
  | cons {b c : Char} {w w' t u : Text} (hw : Blank w) (hw' : Blank w') (hnil : w' = [] ↔ w = [])
      (hkept : w' = w ↔ keepsBlanks b w = true) (hc : isBlank c = false) (h : Wraps c t u) :
      Wraps b (w ++ c :: t) (w' ++ c :: u)

def breakLines : Char → Text → Text
  | _, [] => []
  | b, c :: t => (if b = ';' ∧ c = ' ' then '\n' else c) :: breakLines c t

def atLineEnd (t : Text) : Bool :=
  ((t.dropWhile fun c => isBlank c && c != '\n').head?.all (· == '\n'))

/-- Every line without the white space at its end, and every line but the first set in. -/
def layOut : Text → Text
  | [] => []
  | c :: t =>
    if c = '\n' then '\n' :: ' ' :: ' ' :: layOut t
    else if isBlank c && atLineEnd t then layOut t
    else c :: layOut t

variable {b c d : Char} {t u v w w' x y : Text}

theorem keepsBlanks_cons : keepsBlanks b (c :: t) = true ↔
    c ≠ '\n' ∧ ¬ (b = ';' ∧ c = ' ') ∧ keepsBlanks c t = true := by
  simp [keepsBlanks, and_assoc, imp_iff_not_or]

theorem keepsBlanks_of_visible (hc : isBlank c = false) (b : Char) (t : Text) :
    keepsBlanks b (c :: t) = keepsBlanks c t := by
  have hfeed : c ≠ '\n' := by
    rintro rfl
    exact absurd hc (by decide)
  have hspace : c ≠ ' ' := by
    rintro rfl
    exact absurd hc (by decide)
  simp [keepsBlanks, hfeed, hspace]

theorem keepsBlanks_append (b : Char) (t u : Text) :
    keepsBlanks b (t ++ u) = (keepsBlanks b t && keepsBlanks (t.getLastD b) u) := by
  induction t generalizing b with
  | nil => rfl
  | cons c t ih =>
    rw [List.cons_append, keepsBlanks, ih, keepsBlanks, Bool.and_assoc, List.getLastD_cons]

theorem startsWith_semicolon (b c : Char) (t : Text) :
    startsWith (b :: c :: t) "; " = true ↔ b = ';' ∧ c = ' ' := by
  have hstart : [';', ' '] <+: b :: c :: t ↔ ';' = b ∧ ' ' = c := by
    simp [List.cons_prefix_cons]
  exact List.isPrefixOf_iff_prefix.trans (hstart.trans (and_congr eq_comm eq_comm))

theorem keepsBlanks_iff_behind (b : Char) (t : Text) :
    keepsBlanks b t = true ↔ '\n' ∉ t ∧ contains (b :: t) "; " = false := by
  induction t generalizing b with
  | nil =>
    simp [keepsBlanks, contains, startsWith, List.isPrefixOf]
  | cons c t ih =>
    rw [keepsBlanks_cons, ih, List.mem_cons, not_or, contains_cons b, Bool.or_eq_false_iff,
      ← Bool.not_eq_true (startsWith _ _), startsWith_semicolon]
    constructor
    · rintro ⟨hc, hspace, hfeed, hrest⟩
      exact ⟨⟨Ne.symm hc, hfeed⟩, hspace, hrest⟩
    · rintro ⟨⟨hc, hfeed⟩, hspace, hrest⟩
      exact ⟨Ne.symm hc, hspace, hfeed, hrest⟩

/-- No line ends in the text and no space in it follows a semicolon. -/
theorem keepsBlanks_iff (hb : b ≠ ';') :
    keepsBlanks b t = true ↔ '\n' ∉ t ∧ t.contains "; " = false := by
  have hstart : startsWith (b :: t) "; " = false := by
    rcases t with _ | ⟨c, t⟩
    · simp [startsWith, List.isPrefixOf]
    · exact Bool.eq_false_iff.mpr fun h => hb ((startsWith_semicolon b c t).mp h).1
  rw [keepsBlanks_iff_behind, contains_cons, hstart, Bool.false_or]

namespace Wraps

theorem last_visible (h : Wraps b t u) : ∀ c ∈ t.getLast?, isBlank c = false := by
  induction h with
  | nil => simp
  | @cons b c w w' t u _ _ _ _ hc h ih =>
    intro d hd
    rw [List.getLast?_append_of_ne_nil _ (List.cons_ne_nil c t)] at hd
    cases t with
    | nil => exact (Option.some.inj hd) ▸ hc
    | cons e t => exact ih d (by rwa [List.getLast?_cons_cons] at hd)

theorem append (h : Wraps b t u) (h' : Wraps (t.getLastD b) x y) : Wraps b (t ++ x) (u ++ y) := by
  induction h with
  | nil => exact h'
  | @cons b c w w' t u hw hw' hnil hkept hc _ ih =>
    rw [List.append_assoc, List.append_assoc]
    refine .cons hw hw' hnil hkept hc (ih ?_)
    have hlast : (w ++ c :: t).getLastD b = t.getLastD c := by
      rw [List.getLastD_eq_getLast?, List.getLastD_eq_getLast?, List.getLast?_append,
        List.getLast?_cons]
      rfl
    rwa [hlast] at h'

theorem visible (hc : isBlank c = false) (h : Wraps c t u) : Wraps b (c :: t) (c :: u) :=
  .cons .nil .nil Iff.rfl (by simp [keepsBlanks]) hc h

theorem of_visible (hc : isBlank c = false) (h : Wraps b (c :: t) u) :
    ∃ v, u = c :: v ∧ Wraps c t v := by
  generalize hx : c :: t = x at h
  cases h with
  | nil => exact absurd hx (List.cons_ne_nil c t)
  | @cons _ d w w' t' v hw _ hnil _ _ h =>
    rcases w with _ | ⟨a, w⟩
    · obtain ⟨rfl, rfl⟩ := List.cons.inj hx
      rw [hnil.mpr rfl]
      exact ⟨v, rfl, h⟩
    · obtain ⟨rfl, -⟩ := List.cons.inj hx
      rw [(blank_cons.mp hw).1] at hc
      exact absurd hc.symm Bool.false_ne_true

theorem head?_eq_some_iff (h : Wraps b t u) (hd : isBlank d = false) :
    u.head? = some d ↔ t.head? = some d := by
  have hblank : ∀ {w : Text}, Blank w → w ≠ [] → ∀ x : Text, (w ++ x).head? ≠ some d := by
    intro w hw hne x he
    obtain ⟨a, w, rfl⟩ := List.exists_cons_of_ne_nil hne
    obtain rfl : a = d := by simpa using he
    exact Bool.false_ne_true (hd.symm.trans (hw _ List.mem_cons_self))
  cases h with
  | nil => exact Iff.rfl
  | @cons _ c w w' t u hw hw' hnil _ _ _ =>
    rcases eq_or_ne w [] with rfl | hne
    · rw [hnil.mpr rfl]
      rfl
    · exact iff_of_false (hblank hw' (mt hnil.mp hne) _) (hblank hw hne _)

theorem eq_iff (h : Wraps b t u) : u = t ↔ keepsBlanks b t = true := by
  induction h with
  | nil => simp [keepsBlanks]
  | @cons b c w w' t u hw hw' _ hkept hc _ ih =>
    rw [keepsBlanks_append, keepsBlanks_of_visible hc, Bool.and_eq_true, ← hkept, ← ih]
    constructor
    · intro he
      have htake : ∀ {w t : Text}, Blank w → (w ++ c :: t).takeWhile isBlank = w := by
        intro w t hw
        rw [List.takeWhile_append_of_pos hw]
        simp [hc]
      have hblanks : w' = w := by rw [← htake hw', he, htake hw]
      rw [hblanks] at he
      exact ⟨hblanks, (List.cons.inj (List.append_cancel_left he)).2⟩
    · rintro ⟨rfl, rfl⟩
      rfl

theorem squeeze_eq (h : Wraps b t u) (inRun : Bool) :
    squeeze isBlank ' ' inRun u = squeeze isBlank ' ' inRun t := by
  induction h generalizing inRun with
  | nil => rfl
  | @cons b c w w' t u hw hw' hnil _ hc _ ih =>
    have htail : squeezeBlanks u = squeezeBlanks t := ih false
    rw [squeeze_blank_append hw, squeeze_blank_append hw', squeeze_visible hc, squeeze_visible hc,
      htail]
    simp only [hnil]

end Wraps

section BreakLines

theorem breakLines_append (b : Char) (t u : Text) :
    breakLines b (t ++ u) = breakLines b t ++ breakLines (t.getLastD b) u := by
  induction t generalizing b with
  | nil => rfl
  | cons c t ih => rw [List.cons_append, breakLines, ih, breakLines, List.getLastD_cons]; rfl

theorem breakLines_visible (hc : isBlank c = false) (b : Char) (t : Text) :
    breakLines b (c :: t) = c :: breakLines c t := by
  have hspace : c ≠ ' ' := by
    rintro rfl
    exact absurd hc (by decide)
  rw [breakLines, if_neg fun h => hspace h.2]

theorem breakLines_eq_nil : breakLines b t = [] ↔ t = [] := by
  cases t <;> simp [breakLines]

theorem blank_breakLines (hw : Blank w) : Blank (breakLines b w) := by
  induction w generalizing b with
  | nil => exact hw
  | cons c w ih =>
    obtain ⟨hc, hw⟩ := blank_cons.mp hw
    rw [breakLines, blank_cons]
    refine ⟨?_, ih hw⟩
    split_ifs
    · decide
    · exact hc

theorem mem_breakLines : '\n' ∈ breakLines b t ↔ keepsBlanks b t = false := by
  induction t generalizing b with
  | nil => simp [breakLines, keepsBlanks]
  | cons c t ih =>
    rw [breakLines, List.mem_cons, ih, keepsBlanks]
    by_cases hspace : b = ';' ∧ c = ' '
    · simp [hspace]
    · by_cases hc : c = '\n'
      · simp [hc]
      · have hother : (c == '\n' || (b == ';' && c == ' ')) = false := by
          simpa [hc] using hspace
        simp [hspace, Ne.symm hc, hother]

theorem breakLines_of_keepsBlanks (h : keepsBlanks b t = true) : breakLines b t = t := by
  induction t generalizing b with
  | nil => rfl
  | cons c t ih =>
    obtain ⟨-, hspace, ht⟩ := keepsBlanks_cons.mp h
    rw [breakLines, if_neg hspace, ih ht]

theorem replace_eq_breakLines (hb : b = ';' → t.head? ≠ some ' ') :
    t.replace "; " ";\n" = breakLines b t := by
  induction h : t.length using Nat.strong_induction_on generalizing t b with
  | _ n ih =>
    have hr := forward_literal "; " ";\n"
    rcases t with _ | ⟨c, t⟩
    · rfl
    · have hkeep : breakLines b (c :: t) = c :: breakLines c t := by
        rw [breakLines, if_neg]
        rintro ⟨rfl, rfl⟩
        exact hb rfl rfl
      rw [hkeep]
      by_cases hc : c = ';' ∧ t.head? = some ' '
      · obtain ⟨rfl, hhead⟩ := hc
        obtain ⟨t, rfl⟩ := List.head?_eq_some_iff.mp hhead
        have hne : ("; " : Text) ≠ [] := by decide
        have hreplace := replace_append hne ";\n" t
        have hlen : t.length < n := by
          rw [← h]
          simp only [List.length_cons]
          omega
        have htail : breakLines ';' (' ' :: t) = '\n' :: breakLines ' ' t := rfl
        rw [htail, ← ih t.length hlen (b := ' ') (fun he => absurd he (by decide)) rfl]
        exact hreplace
      · have hnone : literal "; " ";\n" none (c :: t) = none := by
          rw [literal, Option.map_eq_none_iff, dropStart?_eq_none]
          intro rest he
          obtain ⟨rfl, rfl⟩ := List.cons.inj he
          exact hc ⟨rfl, rfl⟩
        have hlen : t.length < n := by
          rw [← h]
          exact Nat.lt_succ_self _
        rw [replace, substitute_cons hr hnone, ← replace,
          ih t.length hlen (b := c) (fun he hhead => hc ⟨he, hhead⟩) rfl]

end BreakLines

section LayOut

def layOutBlanks : Text → Text
  | [] => []
  | c :: w =>
    if c = '\n' then '\n' :: ' ' :: ' ' :: layOutBlanks w
    else if '\n' ∈ w then layOutBlanks w
    else c :: layOutBlanks w

theorem atLineEnd_append (hw : Blank w) (hc : isBlank c = false) (t : Text) :
    atLineEnd (w ++ c :: t) = decide ('\n' ∈ w) := by
  have hfeed : c ≠ '\n' := by
    rintro rfl
    exact absurd hc (by decide)
  induction w with
  | nil => simp [atLineEnd, hc, hfeed]
  | cons a w ih =>
    obtain ⟨ha, hw⟩ := blank_cons.mp hw
    by_cases he : a = '\n'
    · simp [atLineEnd, he]
    · have hskip : atLineEnd (a :: w ++ c :: t) = atLineEnd (w ++ c :: t) := by
        simp [atLineEnd, ha, he]
      rw [hskip, ih hw]
      simp [Ne.symm he]

theorem layOut_append (hw : Blank w) (hc : isBlank c = false) (t : Text) :
    layOut (w ++ c :: t) = layOutBlanks w ++ c :: layOut t := by
  have hfeed : c ≠ '\n' := by
    rintro rfl
    exact absurd hc (by decide)
  induction w with
  | nil => simp [layOut, layOutBlanks, hfeed, hc]
  | cons a w ih =>
    obtain ⟨ha, hw⟩ := blank_cons.mp hw
    rw [List.cons_append, layOut, layOutBlanks, atLineEnd_append hw hc, ha, Bool.true_and, ih hw]
    simp only [decide_eq_true_eq]
    split_ifs <;> rfl

theorem blank_layOutBlanks (hw : Blank w) : Blank (layOutBlanks w) := by
  induction w with
  | nil => exact hw
  | cons c w ih =>
    obtain ⟨hc, hw⟩ := blank_cons.mp hw
    rw [layOutBlanks]
    split_ifs with h
    · exact Blank.append (t := ['\n', ' ', ' ']) (by decide) (ih hw)
    · exact ih hw
    · exact blank_cons.mpr ⟨hc, ih hw⟩

theorem layOutBlanks_of_notMem (h : '\n' ∉ w) : layOutBlanks w = w := by
  induction w with
  | nil => rfl
  | cons c w ih =>
    rw [List.mem_cons, not_or] at h
    rw [layOutBlanks, if_neg (Ne.symm h.1), if_neg h.2, ih h.2]

theorem exists_layOutBlanks_eq (h : '\n' ∉ w) (x : Text) :
    ∃ y, layOutBlanks (x ++ '\n' :: w) = y ++ '\n' :: ' ' :: ' ' :: w := by
  induction x with
  | nil => exact ⟨[], by rw [List.nil_append, layOutBlanks, if_pos rfl, layOutBlanks_of_notMem h]; rfl⟩
  | cons c x ih =>
    obtain ⟨y, hy⟩ := ih
    rw [List.cons_append, layOutBlanks, hy]
    split_ifs with hc hmem
    · exact ⟨'\n' :: ' ' :: ' ' :: y, rfl⟩
    · exact ⟨y, rfl⟩
    · exact absurd (List.mem_append_right x List.mem_cons_self) hmem

theorem exists_last_feed (h : '\n' ∈ w) : ∃ x p, w = x ++ '\n' :: p ∧ '\n' ∉ p := by
  obtain ⟨a, b, he, ha⟩ := List.eq_append_cons_of_mem (List.mem_reverse.mpr h)
  refine ⟨b.reverse, a.reverse, ?_, fun hm => ha (List.mem_reverse.mp hm)⟩
  rw [← List.reverse_reverse w, he]
  simp

theorem layOutBlanks_eq_nil : layOutBlanks w = [] ↔ w = [] := by
  refine ⟨fun h => ?_, fun h => by rw [h]; rfl⟩
  by_cases hfeed : '\n' ∈ w
  · obtain ⟨x, p, rfl, hp⟩ := exists_last_feed hfeed
    obtain ⟨y, hy⟩ := exists_layOutBlanks_eq hp x
    rw [hy] at h
    simp at h
  · rwa [layOutBlanks_of_notMem hfeed] at h

/-- White space that is broken and laid out stays as it is only if no line ends in it and it does not
begin with a space behind a semicolon. -/
theorem layOutBlanks_breakLines_eq_iff :
    layOutBlanks (breakLines b w) = w ↔ keepsBlanks b w = true := by
  constructor
  · intro h
    by_contra hkeep
    obtain ⟨x, p, hsplit, hp⟩ := exists_last_feed (mem_breakLines.mpr (by simpa using hkeep))
    obtain ⟨y, hy⟩ := exists_layOutBlanks_eq hp x
    rw [← hsplit, h] at hy
    -- Behind the last line feed stand two spaces, of which the second one follows no semicolon.
    have hbroken : breakLines b w = (breakLines b y ++ ['\n', ' ']) ++ (' ' :: breakLines ' ' p) := by
      rw [hy, breakLines_append]
      simp [breakLines]
    have hlength : ∀ b t, (breakLines b t).length = t.length := by
      intro b t
      induction t generalizing b with
      | nil => rfl
      | cons c t ih => rw [breakLines, List.length_cons, List.length_cons, ih]
    have hsuffix := (List.append_inj' (hsplit.symm.trans hbroken) (by simp [hlength])).2
    exact absurd (List.cons.inj hsuffix).1 (by decide)
  · intro h
    have hfeed : '\n' ∉ breakLines b w := by
      rw [mem_breakLines, h]
      decide
    rw [layOutBlanks_of_notMem hfeed, breakLines_of_keepsBlanks h]

theorem wraps_layOut (h : ∀ c ∈ t.getLast?, isBlank c = false) :
    Wraps b t (layOut (breakLines b t)) := by
  induction hn : t.length using Nat.strong_induction_on generalizing t b with
  | _ n ih =>
    rcases cut?_cases (!isBlank ·) t with hblank | ⟨w, c, t, rfl, hw, hc⟩
    · rcases eq_or_ne t [] with rfl | hne
      · exact .nil b
      · have hlast := h _ (List.getLast?_eq_some_getLast hne)
        have hlast' := hblank _ (List.getLast_mem hne)
        rw [hlast] at hlast'
        exact absurd hlast' (by decide)
    · have hw : Blank w := fun d hd => by simpa using hw d hd
      have hc : isBlank c = false := by simpa using hc
      have ht : ∀ d ∈ t.getLast?, isBlank d = false := by
        intro d hd
        refine h d ?_
        rw [List.getLast?_append_of_ne_nil _ (List.cons_ne_nil c t), List.getLast?_cons, hd]
        rfl
      rw [breakLines_append, breakLines_visible hc,
        layOut_append (blank_breakLines hw) hc]
      refine .cons hw (blank_layOutBlanks (blank_breakLines hw)) ?_ layOutBlanks_breakLines_eq_iff hc
        (ih t.length ?_ ht rfl)
      · rw [layOutBlanks_eq_nil, breakLines_eq_nil]
      · rw [← hn, List.length_append, List.length_cons]
        omega

theorem atLineEnd_eq {ws : List Text} (h : split (· == '\n') t = w :: ws) :
    atLineEnd t = decide (Blank w) := by
  induction t generalizing w ws with
  | nil =>
    obtain ⟨rfl, -⟩ := List.cons.inj h
    rfl
  | cons c t ih =>
    by_cases hc : c = '\n'
    · subst hc
      rw [split_feed] at h
      obtain ⟨rfl, -⟩ := List.cons.inj h
      simp [atLineEnd, Blank]
    · obtain ⟨v, vs, hv, hcons⟩ := split_cons_of_ne (p := (· == '\n')) (beq_false_of_ne hc) t
      rw [hcons] at h
      obtain ⟨rfl, -⟩ := List.cons.inj h
      cases hblank : isBlank c with
      | true =>
        have hskip : atLineEnd (c :: t) = atLineEnd t := by simp [atLineEnd, hblank, hc]
        rw [hskip, ih hv]
        simp [blank_cons, hblank]
      | false => simp [atLineEnd, blank_cons, hblank, hc]

theorem join_cons_append (separator : Text) (c : Char) (t : Text) (ts : List Text) :
    join separator ((c :: t) :: ts) = c :: join separator (t :: ts) := by
  rcases ts with _ | ⟨u, ts⟩
  · rw [join_singleton, join_singleton]
  · rw [join_cons_cons, join_cons_cons, List.cons_append]

theorem trimEnd_cons (c : Char) (t : Text) :
    trimEnd (c :: t) = if isBlank c = true ∧ Blank t then [] else c :: trimEnd t := by
  by_cases ht : Blank t
  · have hnil := trimEnd_eq_nil_iff.mpr ht
    cases hc : isBlank c with
    | true => rw [if_pos ⟨rfl, ht⟩, trimEnd_eq_nil_iff, blank_cons, hc]; exact ⟨rfl, ht⟩
    | false =>
      have happend : trimEnd ([c] ++ t) = trimEnd [c] := trimEnd_append [c] ht
      have hself : trimEnd [c] = [c] := trimEnd_eq_self (by simp [hc])
      rw [if_neg (by simp), hnil, ← hself]
      exact happend
  · rw [if_neg fun h => ht h.2]
    exact trimEnd_append_of_ne_nil [c] (mt trimEnd_eq_nil_iff.mp ht)

theorem layOut_eq_join (t : Text) :
    layOut t = join "\n  " ((split (· == '\n') t).map trimEnd) := by
  induction t with
  | nil => rfl
  | cons c t ih =>
    by_cases hc : c = '\n'
    · subst hc
      rw [layOut, if_pos rfl, ih, split_feed, List.map_cons,
        join_cons_of_ne_nil _ _ (by simpa using split_ne_nil _ t)]
      rfl
    · obtain ⟨v, vs, hv, hcons⟩ := split_cons_of_ne (p := (· == '\n')) (beq_false_of_ne hc) t
      rw [layOut, if_neg hc, ih, hcons, hv, List.map_cons, List.map_cons, trimEnd_cons,
        atLineEnd_eq hv]
      by_cases hblank : isBlank c = true ∧ Blank v
      · rw [if_pos (by simpa using hblank), if_pos hblank, trimEnd_eq_nil_iff.mpr hblank.2]
      · rw [if_neg (by simpa using hblank), if_neg hblank, join_cons_append]

theorem exists_split_append (hc : c ≠ '\n') (t : Text) :
    ∃ ws w, split (· == '\n') (t ++ [c]) = ws ++ [w] ∧ w ≠ [] := by
  induction t with
  | nil => exact ⟨[], [c], by simp [split, hc], by simp⟩
  | cons d t ih =>
    obtain ⟨ws, w, hsplit, hne⟩ := ih
    rw [List.cons_append, split, hsplit]
    split_ifs
    · exact ⟨[] :: ws, w, rfl, hne⟩
    · rcases ws with _ | ⟨v, ws⟩
      · exact ⟨[], d :: w, rfl, by simp⟩
      · exact ⟨(d :: v) :: ws, w, rfl, hne⟩

end LayOut

theorem trimEnd_dropReturn (t : Text) : trimEnd (dropReturn t) = trimEnd t := by
  rw [dropReturn]
  split_ifs with h
  · obtain ⟨u, rfl⟩ := List.getLast?_eq_some_iff.mp h
    rw [List.dropLast_concat, trimEnd_append u (by decide)]
  · rfl

theorem join_map_prefix (p : Text) (ts : List Text) (h : ts ≠ []) :
    join "\n" (ts.map (p ++ ·)) = p ++ join ("\n" ++ p) ts := by
  induction ts with
  | nil => exact absurd rfl h
  | cons t ts ih =>
    rcases ts with _ | ⟨u, ts⟩
    · rw [List.map_singleton, join_singleton, join_singleton]
    · rw [List.map_cons, join_cons_of_ne_nil _ _ (by simp), ih (List.cons_ne_nil u ts),
        join_cons_cons, List.append_assoc, List.append_assoc]

end Text

namespace Conversion

open Text

variable {t : Text}

theorem indentDeclarations_eq (hne : t ≠ []) (h : ∀ c ∈ t.getLast?, isBlank c = false) :
    indentDeclarations t = "  " ++ layOut (breakLines '\n' t) := by
  obtain ⟨u, c, rfl⟩ := (List.eq_nil_or_concat t).resolve_left hne
  rw [List.concat_eq_append] at h ⊢
  have hc : isBlank c = false := h c (by simp)
  have hfeed : c ≠ '\n' := by
    rintro rfl
    exact absurd hc (by decide)
  have hbroken : breakLines '\n' (u ++ [c]) = breakLines '\n' u ++ [c] := by
    rw [breakLines_append, breakLines_visible hc]
    rfl
  obtain ⟨ws, w, hsplit, hw⟩ := exists_split_append hfeed (breakLines '\n' u)
  have hlines : lines (breakLines '\n' u ++ [c]) = ws.map dropReturn ++ [w] := by
    have hkeep : Option.filter (fun t : Text => !t.isEmpty) (some w) = some w := by
      simpa [Option.filter] using hw
    rw [lines, hsplit, List.dropLast_concat, List.getLast?_concat, hkeep]
    rfl
  have hmap : (ws.map dropReturn ++ [w]).map (fun line => ("  " : Text) ++ trimEnd line) =
      ((ws ++ [w]).map trimEnd).map (("  " : Text) ++ ·) := by
    simp [trimEnd_dropReturn]
  rw [indentDeclarations, replace_eq_breakLines (b := '\n') (fun he => absurd he (by decide)), hbroken,
    hlines, hmap, join_map_prefix _ _ (by simp), layOut_eq_join, hsplit]
  rfl

end Conversion

end Restyle
