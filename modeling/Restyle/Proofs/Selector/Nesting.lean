import Restyle.Proofs.Selector.Complex
import Restyle.Proofs.Selector.List

/-! # Nested selectors mean the same

Writing the token for `&` in the nested form of a selector gives the selector
back, except where white space behind a leading token is lost: in front of
characters that begin neither a combinator nor a class, an id, a name or `*`,
and with the token itself in front of the token.
-/

namespace Restyle

open Text Selector

variable {k : Token} {x : ComplexSelector} {s t u w raw rest : Text} {c : Char}

namespace Token

def Starts (k : Token) (t : Text) : Prop :=
  ∃ rest, t = k.text ++ rest ∧ nameGoesOn rest = false

/-- The text with the token for every `&`. -/
def expand (k : Token) (t : Text) : Text :=
  replace t "&" k.text

theorem amp_notMem_text (k : Token) : '&' ∉ k.text :=
  fun h => (isBoundary_of_mem_text h).2 (by decide)

theorem expand_append (k : Token) (t u : Text) : k.expand (t ++ u) = k.expand t ++ k.expand u :=
  replace_singleton_append t u '&' k.text

@[simp] theorem expand_nil (k : Token) : k.expand [] = [] := rfl

theorem expand_amp (k : Token) (t : Text) : k.expand ('&' :: t) = k.text ++ k.expand t := by
  simp [expand, replace_singleton]

theorem expand_cons (k : Token) (h : c ≠ '&') (t : Text) :
    k.expand (c :: t) = c :: k.expand t := by
  simp [expand, replace_singleton, h]

theorem expand_eq_self (k : Token) (h : '&' ∉ t) : k.expand t = t :=
  replace_singleton_of_notMem h k.text

theorem amp_notMem_expand (k : Token) (t : Text) : '&' ∉ k.expand t := by
  induction t with
  | nil => simp
  | cons c t ih =>
    by_cases hc : c = '&'
    · rw [hc, expand_amp, List.mem_append, not_or]
      exact ⟨k.amp_notMem_text, ih⟩
    · rw [expand_cons k hc, List.mem_cons, not_or]
      exact ⟨Ne.symm hc, ih⟩

theorem trimStart_text_append (k : Token) (t : Text) :
    trimStart (k.text ++ t) = k.text ++ t :=
  trimStart_cons_of_not_isBoundary (isBoundary_of_mem_text List.mem_cons_self).1 _

theorem trimStart_expand (k : Token) (t : Text) :
    trimStart (k.expand t) = k.expand (trimStart t) := by
  induction t with
  | nil => rfl
  | cons c t ih =>
    by_cases hc : c = '&'
    · rw [hc, expand_amp, trimStart_text_append, trimStart_cons_of_not_blank (by decide),
        expand_amp]
    · rw [expand_cons k hc]
      cases hb : isBlank c with
      | true =>
        rw [← List.singleton_append, trimStart_append (blank_cons.mpr ⟨hb, Blank.nil⟩), ih,
          ← List.singleton_append, trimStart_append (blank_cons.mpr ⟨hb, Blank.nil⟩)]
      | false =>
        rw [trimStart_cons_of_not_blank hb, trimStart_cons_of_not_blank hb, expand_cons k hc]

theorem trimmed_of_expand (h : Trimmed (k.expand t)) : Trimmed t := by
  constructor
  · rintro c hc
    obtain ⟨u, rfl⟩ := List.head?_eq_some_iff.mp hc
    by_contra hb
    have hne : c ≠ '&' := by
      rintro rfl
      exact hb (by decide)
    rw [expand_cons k hne] at h
    exact hb (h.1 c rfl)
  · rintro c hc
    obtain ⟨u, rfl⟩ := List.getLast?_eq_some_iff.mp hc
    by_contra hb
    have hne : c ≠ '&' := by
      rintro rfl
      exact hb (by decide)
    rw [expand_append, expand_cons k hne] at h
    exact hb (h.2 c (by simp))

/-- Writing the token out undoes its replacement. -/
theorem expand_replaceToken (k : Token) (h : '&' ∉ t) :
    k.expand (replaceToken t k.text "&") = t := by
  induction t using k.induction with
  | nil => rfl
  | token rest ih =>
    rw [List.mem_append, not_or] at h
    rw [replaceToken_text_append, expand_append, ih h.2]
    split
    · rw [k.expand_eq_self k.amp_notMem_text]
    · exact congrArg (· ++ rest) ((k.expand_amp []).trans (List.append_nil _))
  | char c t hd ih =>
    rw [List.mem_cons, not_or] at h
    rw [replaceToken_cons hd, expand_cons k (Ne.symm h.1), ih h.2]

theorem head?_replaceToken (k : Token) (t : Text) :
    (replaceToken t k.text "&").head? = some '&' ∧ k.Starts t ∨
      (replaceToken t k.text "&").head? = t.head? ∧ ¬ k.Starts t := by
  have hcancel {rest : Text} (h : k.Starts (k.text ++ rest)) : nameGoesOn rest = false := by
    obtain ⟨r, he, hr⟩ := h
    rwa [List.append_cancel_left he]
  induction t using k.induction with
  | nil =>
    right
    refine ⟨rfl, ?_⟩
    rintro ⟨rest, h, -⟩
    simp [text] at h
  | token rest ih =>
    rw [replaceToken_text_append]
    cases h : nameGoesOn rest with
    | false => exact Or.inl ⟨rfl, rest, rfl, h⟩
    | true =>
      refine Or.inr ⟨rfl, fun hs => ?_⟩
      rw [hcancel hs] at h
      exact Bool.false_ne_true h
  | char c t hd ih =>
    rw [replaceToken_cons hd]
    refine Or.inr ⟨rfl, ?_⟩
    rintro ⟨rest, h, -⟩
    exact dropStart?_eq_none.mp hd rest h

theorem depthBehind?_text (k : Token) (depth : Nat) : depthBehind? depth k.text = some depth := by
  refine depthBehind?_of_forall (fun c hc hmem => (isBoundary_of_mem_text hc).2 ?_) depth
  simp only [List.mem_cons, List.not_mem_nil, or_false] at hmem ⊢
  tauto

theorem depthBehind?_replaceToken (k : Token) (depth : Nat) (t : Text) :
    depthBehind? depth (replaceToken t k.text "&") = depthBehind? depth t := by
  induction t using k.induction generalizing depth with
  | nil => rfl
  | token rest ih =>
    rw [replaceToken_text_append, depthBehind?_append (k.depthBehind?_text depth)]
    split
    · rw [depthBehind?_append (k.depthBehind?_text depth), ih]
    · exact ih depth
  | char c t hd ih =>
    rw [replaceToken_cons hd, depthBehind?, depthBehind?]
    simp only [ih]

/-- White space behind a token stays in front of these characters. -/
def keepsSpace (c : Char) : Bool :=
  isCombinator c || c == '.' || c == '#' || c.isAlpha || c == '*'

/-- A selector without `&` that does not begin with the token, or with what nesting keeps behind
it: another text than the token again, and behind white space one that keeps it. -/
def Keeps (k : Token) (s : Text) : Prop :=
  '&' ∉ s ∧ ∀ raw, s = k.text ++ raw → nameGoesOn raw = false →
    ¬ k.Starts (trim raw) ∧ (startsBlank raw = true → ∀ c ∈ (trim raw).head?, keepsSpace c = true)

theorem cutToken?_of_starts (h : nameGoesOn rest = false) :
    cutToken? (k.text ++ rest) k.text = some ([], rest) := by
  rw [cutToken?_text_append, h]
  rfl

theorem cutToken?_of_not_starts (h : ¬ k.Starts s) (hm : k.Mentioned s) :
    ∃ before rest, cutToken? s k.text = some (before, rest) ∧ before ≠ [] := by
  obtain ⟨⟨before, rest⟩, hcut⟩ := Option.isSome_iff_exists.mp ((k.isSome_cutToken?_iff s).mpr hm)
  refine ⟨before, rest, hcut, ?_⟩
  rintro rfl
  clear hm
  induction s using k.induction with
  | nil => simp [cutToken?_nil] at hcut
  | token r =>
    rw [cutToken?_text_append] at hcut
    split at hcut
    · simp [text_ne_nil] at hcut
    · next hr => exact h ⟨r, rfl, by simpa using hr⟩
  | char c t hd =>
    rw [cutToken?_cons hd] at hcut
    simp at hcut

theorem relativeTo?_of_starts (h : nameGoesOn raw = false) (hc : (depthBehind? 0 raw).isSome)
    (hne : trim raw ≠ []) (ha : '&' ∉ trim raw) :
    relativeTo? (k.text ++ raw) k.text =
      some (nestPart (startsBlank raw) (replaceToken (trim raw) k.text "&")) := by
  have hexpand := k.expand_replaceToken ha
  have htrim : Trimmed (replaceToken (trim raw) k.text "&") := by
    refine trimmed_of_expand (k := k) ?_
    rw [hexpand]
    exact trimmed_trim raw
  have hpart : replaceToken (trim raw) k.text "&" ≠ [] := by
    intro hp
    rw [hp] at hexpand
    exact hne hexpand.symm
  obtain ⟨depth, hdepth⟩ := Option.isSome_iff_exists.mp (isSome_depthBehind?_trim hc)
  rw [← k.depthBehind?_replaceToken] at hdepth
  rw [relativeTo?, cutToken?_of_starts h]
  simp only [nestSuffix, List.isEmpty_eq_false_iff.mpr hne, Bool.false_eq_true, if_false,
    splitList_of_depthBehind? hdepth, part_of_trimmed htrim hpart]
  simp [join, List.intercalate]

theorem relativeTo?_of_blank (h : nameGoesOn raw = false) (hne : trim raw = []) :
    relativeTo? (k.text ++ raw) k.text = some ['&'] := by
  rw [relativeTo?, cutToken?_of_starts h]
  simp [nestSuffix, hne]

theorem relativeTo?_of_not_starts (h : ¬ k.Starts s) (hm : k.Mentioned s) :
    relativeTo? s k.text = some (replaceToken s k.text "&") := by
  obtain ⟨before, rest, hcut, hne⟩ := cutToken?_of_not_starts h hm
  obtain ⟨c, before, rfl⟩ := List.exists_cons_of_ne_nil hne
  rw [relativeTo?, hcut]

theorem expand_nestPart_amp (k : Token) (descendant : Bool) (t : Text) :
    k.expand (nestPart descendant ('&' :: t)) = k.expand ('&' :: t) := rfl

theorem expand_nestPart_combinator (hc : isCombinator c = true) (ht : trimStart t ≠ [])
    (hend : ∀ d ∈ t.getLast?, isBlank d = false) (descendant : Bool) :
    k.expand (nestPart descendant (c :: t)) =
      k.text ++ ' ' :: c :: ' ' :: trimStart (k.expand t) := by
  have hne : c ≠ '&' := by
    rintro rfl
    simp [isCombinator] at hc
  have htrim : trimEnd ('&' :: ' ' :: c :: ' ' :: trimStart t) =
      '&' :: ' ' :: c :: ' ' :: trimStart t := by
    refine trimEnd_eq_self fun d hd => hend d ?_
    obtain ⟨u, hu⟩ : trimStart t <:+ t := List.dropWhile_suffix isBlank
    rw [List.getLast?_cons_cons, List.getLast?_cons_cons, List.getLast?_cons_cons] at hd
    rw [← hu, List.getLast?_append_of_ne_nil _ ht]
    rwa [← List.singleton_append, List.getLast?_append_of_ne_nil _ ht] at hd
  have hnest : nestPart descendant (c :: t) = '&' :: ' ' :: c :: ' ' :: trimStart t := by
    rw [← htrim]
    simp [nestPart, hne, hc]
  rw [hnest, expand_amp, expand_cons k (by decide), expand_cons k hne, expand_cons k (by decide),
    trimStart_expand]

theorem expand_nestPart_other (hc : isCombinator c = false) (hne : c ≠ '&') (descendant : Bool)
    (t : Text) :
    k.expand (nestPart descendant (c :: t)) =
      k.text ++ ((if descendant && keepsSpace c then [' '] else []) ++ c :: k.expand t) := by
  have hkeeps : keepsSpace c = (c == '.' || c == '#' || c.isAlpha || c == '*') := by
    simp [keepsSpace, hc]
  rw [nestPart, if_neg hne, hc, if_neg Bool.false_ne_true, ← hkeeps]
  split
  · have hspace : ("& " : Text) ++ c :: t = '&' :: ' ' :: c :: t := rfl
    rw [hspace, expand_amp, expand_cons k (by decide), expand_cons k hne]
    rfl
  · rw [expand_amp, expand_cons k hne]
    rfl

theorem keeps_of_not_starts (ha : '&' ∉ s) (h : ¬ k.Starts s) : k.Keeps s :=
  ⟨ha, fun raw he hraw => absurd ⟨raw, he, hraw⟩ h⟩

theorem keeps_text_append (ha : '&' ∉ raw) (hraw : nameGoesOn raw = false) :
    k.Keeps (k.text ++ raw) ↔ ¬ k.Starts (trim raw) ∧
      (startsBlank raw = true → ∀ c ∈ (trim raw).head?, keepsSpace c = true) := by
  constructor
  · exact fun h => h.2 raw rfl hraw
  · refine fun h => ⟨?_, fun raw' he _ => ?_⟩
    · rw [List.mem_append, not_or]
      exact ⟨k.amp_notMem_text, ha⟩
    · obtain rfl := List.append_cancel_left he
      exact h

theorem exists_gap (hs : Trimmed (k.text ++ raw)) (hne : raw ≠ []) :
    ∃ w c t, Blank w ∧ isBlank c = false ∧ raw = w ++ c :: t ∧ trim raw = c :: t := by
  obtain ⟨w, w', hw, hw', he⟩ := exists_eq_trim raw
  have hlast : ∀ d ∈ raw.getLast?, isBlank d = false := by
    intro d hd
    exact hs.2 d (by rwa [List.getLast?_append_of_ne_nil _ hne])
  have hw'nil : w' = [] := by
    by_contra hw'ne
    have hd := List.getLast?_eq_some_getLast hw'ne
    have hb := hlast _ (by rw [he, List.getLast?_append_of_ne_nil _ hw'ne, hd]; rfl)
    rw [hw' _ (List.getLast_mem hw'ne)] at hb
    exact Bool.false_ne_true hb.symm
  rw [hw'nil, List.append_nil] at he
  rcases ht : trim raw with _ | ⟨c, t⟩
  · have hb : Blank raw := trim_eq_nil_iff.mp ht
    have hd := List.getLast?_eq_some_getLast hne
    have hv := hlast _ hd
    rw [hb _ (List.getLast_mem hne)] at hv
    exact absurd hv.symm Bool.false_ne_true
  · refine ⟨w, c, t, hw, ?_, by rw [← ht, ← he], rfl⟩
    exact (trimmed_trim raw).1 c (by rw [ht]; rfl)

theorem startsBlank_append (hw : Blank w) (hc : isBlank c = false) :
    startsBlank (w ++ c :: t) = !w.isEmpty := by
  rcases w with _ | ⟨d, w⟩
  · exact hc
  · exact (blank_cons.mp hw).1

/-- A token behind white space that nesting drops is not the selector any more. -/
theorem not_spells_of_dropped (hx : x.Spells (k.text ++ (w ++ c :: t))) (hw : Blank w)
    (hne : w ≠ []) (hc : isBoundary c = false) : ¬ x.Spells (k.text ++ c :: t) := by
  obtain ⟨d, w, rfl⟩ := List.exists_cons_of_ne_nil hne
  have hd : isBoundary d = true := by simp [isBoundary, (blank_cons.mp hw).1]
  have hhead := (hx.head_eq hd).1
  rintro ⟨rest, hrest, he⟩
  rw [hhead] at he
  obtain rfl := List.append_cancel_left he
  obtain ⟨e, u, hcons, he⟩ := hrest.exists_boundary (List.cons_ne_nil _ _)
  rw [← (List.cons.inj hcons).1, hc] at he
  exact Bool.false_ne_true he

theorem visible_text (k : Token) : visible k.text = k.text := by
  rw [visible, List.filter_eq_self]
  intro c hc
  have hb := (isBoundary_of_mem_text hc).1
  simp only [isBoundary, Bool.or_eq_false_iff] at hb
  simp [hb.1]

theorem spells_nestPart_combinator (hx : x.Spells (k.text ++ (w ++ c :: k.expand t)))
    (hw : Blank w) (ht : Trimmed (c :: t)) (hc : isCombinator c = true) (descendant : Bool) :
    x.Spells (k.expand (nestPart descendant (c :: t))) := by
  obtain ⟨d, u, hdu, hd⟩ : ∃ d u, w ++ c :: k.expand t = d :: u ∧ isBoundary d = true := by
    rcases w with _ | ⟨d, w⟩
    · exact ⟨c, _, rfl, by simp [isBoundary, hc]⟩
    · exact ⟨d, _, rfl, by simp [isBoundary, (blank_cons.mp hw).1]⟩
  rw [hdu] at hx
  obtain ⟨hhead, hlinks⟩ := hx.head_eq hd
  rw [← hdu] at hlinks
  obtain ⟨hne, hspells⟩ := hlinks.respace_visible hw hc
  have hne' : trimStart t ≠ [] := by
    intro he
    rw [trimStart_expand, he] at hne
    exact hne rfl
  have hend : ∀ d ∈ t.getLast?, isBlank d = false := by
    intro d hd
    have htne : t ≠ [] := by
      rintro rfl
      exact hne' rfl
    refine ht.2 d ?_
    rwa [← List.singleton_append, List.getLast?_append_of_ne_nil _ htne]
  rw [expand_nestPart_combinator hc hne' hend]
  exact ⟨_, hspells, by rw [hhead]⟩

theorem spells_nestPart_iff (hx : x.Spells (k.text ++ (w ++ c :: t))) (hw : Blank w)
    (ht : Trimmed (c :: t)) (ha : '&' ∉ c :: t) :
    x.Spells (k.expand (nestPart (!w.isEmpty) (replaceToken (c :: t) k.text "&"))) ↔
      ¬ k.Starts (c :: t) ∧ ((!w.isEmpty) = true → keepsSpace c = true) := by
  have hexpand := k.expand_replaceToken ha
  rcases k.head?_replaceToken (c :: t) with ⟨hp, hstart⟩ | ⟨hp, hstart⟩
  · -- the token again: nothing is left of the one in front
    obtain ⟨p, hp⟩ := List.head?_eq_some_iff.mp hp
    rw [hp, expand_nestPart_amp, ← hp, hexpand]
    refine iff_of_false (fun h => ?_) fun h => h.1 hstart
    have hv := congrArg List.length (hx.visible_eq h)
    rw [visible_append, visible_append, visible_of_blank hw, visible_text] at hv
    simp only [text, List.length_append, List.length_cons, List.nil_append] at hv
    omega
  · obtain ⟨p, hp⟩ := List.head?_eq_some_iff.mp hp
    have hne : c ≠ '&' := fun h => ha (h ▸ List.mem_cons_self)
    rw [hp] at hexpand ⊢
    have hpt : Trimmed (c :: p) := trimmed_of_expand (k := k) (by rwa [hexpand])
    rw [expand_cons k hne] at hexpand
    obtain rfl : k.expand p = t := (List.cons.inj hexpand).2
    cases hv : isCombinator c with
    | true =>
      refine iff_of_true (spells_nestPart_combinator hx hw hpt hv _) ⟨hstart, fun _ => ?_⟩
      simp [keepsSpace, hv]
    | false =>
      have hb : isBoundary c = false := by
        have hc : isBlank c = false := ht.1 c rfl
        simp [isBoundary, hc, hv]
      rw [expand_nestPart_other hv hne]
      rcases w with _ | ⟨d, w⟩
      · exact iff_of_true hx ⟨hstart, fun h => absurd h (by simp)⟩
      · have hd : isBoundary d = true := by simp [isBoundary, (blank_cons.mp hw).1]
        cases hk : keepsSpace c with
        | true =>
          obtain ⟨hhead, hlinks⟩ := hx.head_eq hd
          have hspells := hlinks.respace_descendant hw hb
          exact iff_of_true ⟨_, hspells, by rw [hhead]; rfl⟩ ⟨hstart, fun _ => rfl⟩
        | false =>
          have hdropped := not_spells_of_dropped hx hw (List.cons_ne_nil _ _) hb
          exact iff_of_false hdropped fun h => Bool.false_ne_true (h.2 rfl)

/-- A trimmed selector without a comma outside brackets that mentions the token has a nested form,
which with the token for `&` spells the selector again just where nesting keeps it. -/
theorem spells_expand_iff (k : Token) (x : ComplexSelector) (s : Text) (hx : x.Spells s)
    (hs : Trimmed s) (hc : (depthBehind? 0 s).isSome) (hm : k.Mentioned s) :
    ∃ r, relativeTo? s k.text = some r ∧ (x.Spells (k.expand r) ↔ k.Keeps s) := by
  obtain ⟨r, hr⟩ := Option.isSome_iff_exists.mp ((k.isSome_relativeTo?_iff s).mpr hm)
  refine ⟨r, hr, ?_⟩
  by_cases ha : '&' ∈ s
  · refine iff_of_false (fun h => ?_) fun h => h.1 ha
    have hmem : '&' ∈ visible s := List.mem_filter.mpr ⟨ha, by decide⟩
    rw [hx.visible_eq h] at hmem
    exact k.amp_notMem_expand r (List.mem_of_mem_filter hmem)
  · by_cases hstart : k.Starts s
    · obtain ⟨raw, rfl, hraw⟩ := hstart
      have haraw : '&' ∉ raw := fun h => ha (List.mem_append_right _ h)
      rw [keeps_text_append haraw hraw]
      rcases eq_or_ne raw [] with rfl | hne
      · rw [relativeTo?_of_blank hraw rfl, Option.some_inj] at hr
        have hself : k.expand r = k.text ++ [] := by
          rw [← hr]
          exact k.expand_amp []
        rw [hself]
        refine iff_of_true hx ⟨?_, fun h => absurd h (by decide)⟩
        rintro ⟨rest, h, -⟩
        simp [text] at h
      · obtain ⟨w, c, t, hw, hblank, rfl, htrim⟩ := exists_gap hs hne
        have hact : '&' ∉ c :: t := fun h => haraw (List.mem_append_right _ h)
        have hdepth : (depthBehind? 0 (w ++ c :: t)).isSome := by
          rwa [depthBehind?_append (k.depthBehind?_text 0)] at hc
        have htrimmed : Trimmed (c :: t) := by
          rw [← htrim]
          exact trimmed_trim _
        rw [relativeTo?_of_starts hraw hdepth (by simp [htrim]) (by rwa [htrim]), htrim,
          startsBlank_append hw hblank, Option.some_inj] at hr
        rw [← hr, htrim, startsBlank_append hw hblank, spells_nestPart_iff hx hw htrimmed hact]
        simp
    · rw [relativeTo?_of_not_starts hstart hm, Option.some_inj] at hr
      rw [← hr, expand_replaceToken k ha]
      exact iff_of_true hx (keeps_of_not_starts ha hstart)

theorem spells_expand_iff_child :
    let k : Token := ⟨'.', "card", by decide, by decide, by decide⟩
    let x : ComplexSelector := ⟨⟨".card", by decide, by decide⟩,
      [(.visible '>', ⟨"a", by decide, by decide⟩),
        (.descendant, ⟨".card:is(.b, .card)", by decide, by decide⟩)]⟩
    let s : Text := ".card >a .card:is(.b, .card)"
    (x.Spells s ∧ Trimmed s ∧ (depthBehind? 0 s).isSome ∧ k.Mentioned s) ∧
      ∃ r, relativeTo? s k.text = some r ∧ (x.Spells (k.expand r) ↔ k.Keeps s) := by
  intro k x s
  have hx : x.Spells s := by
    refine ⟨" >a .card:is(.b, .card)", ⟨" >", " .card:is(.b, .card)", ?_, ?_, rfl⟩, rfl⟩
    · exact ⟨rfl, " ", [], by decide, by decide, rfl⟩
    · exact ⟨" ", [], ⟨by decide, by decide⟩, rfl, rfl⟩
  exact ⟨⟨hx, by decide, by decide, by decide⟩,
    k.spells_expand_iff x s hx (by decide) (by decide) (by decide)⟩

/-- The descendant is lost in front of a pseudo-class, and with the token in front of the token. -/
theorem descendant_lost :
    let k : Token := ⟨'.', "card", by decide, by decide, by decide⟩
    let card : Compound := ⟨".card", by decide, by decide⟩
    let hovered : ComplexSelector := ⟨card, [(.descendant, ⟨":hover", by decide, by decide⟩)]⟩
    let inner : ComplexSelector := ⟨card, [(.descendant, card)]⟩
    (hovered.Spells ".card :hover" ∧ relativeTo? ".card :hover" k.text = some ("&:hover" : Text) ∧
      ¬ hovered.Spells (k.expand "&:hover")) ∧
    inner.Spells ".card .card" ∧ relativeTo? ".card .card" k.text = some ("&" : Text) ∧
      ¬ inner.Spells (k.expand "&") := by
  intro k card hovered inner
  have hspace : Combinator.descendant.Written " " := ⟨by decide, by decide⟩
  have hhovered : hovered.Spells ".card :hover" :=
    ⟨" :hover", ⟨" ", [], hspace, rfl, rfl⟩, rfl⟩
  have hinner : inner.Spells ".card .card" := ⟨" .card", ⟨" ", [], hspace, rfl, rfl⟩, rfl⟩
  refine ⟨⟨hhovered, by decide, ?_⟩, hinner, by decide, fun h => ?_⟩
  · exact not_spells_of_dropped (k := k) (c := ':') (t := "hover") hhovered
      (by decide : Blank [' ']) (by decide) (by decide)
  · exact absurd (hinner.visible_eq h) (by decide)

end Token

end Restyle
