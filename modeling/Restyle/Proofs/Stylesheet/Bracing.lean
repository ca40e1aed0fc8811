import Restyle.Element.Styles
import Restyle.Proofs.Declaration.AlphaValue
import Restyle.Proofs.Declaration.TokenPass
import Restyle.Proofs.Text.Cut

/-! # Flat stylesheets

A flat rule has only declarations between its braces, and a flat stylesheet is a
sequence of such rules. A text is a flat stylesheet exactly if its braces open
and close in turn. Writing colour tokens anew and putting a selector in the place
of another text leaves the braces as they are, so a flat snippet is flat for its
selector as well.
-/

namespace Restyle

open Text

def Text.Braceless (t : Text) : Prop :=
  '{' ∉ t ∧ '}' ∉ t

instance (t : Text) : Decidable t.Braceless :=
  inferInstanceAs (Decidable (_ ∧ _))

/-- A rule with nothing but declarations in it. -/
structure FlatRule where
  prelude : Text
  body : Text
  prelude_braceless : Braceless prelude
  body_braceless : Braceless body

/-- The text of rules one after the other, in front of a text. -/
def flatSheet : List FlatRule → Text → Text
  | [], rest => rest
  | r :: rules, rest => r.prelude ++ '{' :: (r.body ++ '}' :: flatSheet rules rest)

namespace Text

def isBrace (c : Char) : Bool :=
  c == '{' || c == '}'

def braces (t : Text) : Text :=
  t.filter isBrace

variable {t u f out old new : Text} {c : Char} {P : Grammar} {r : Recogniser Text}

@[simp] theorem braces_append (t u : Text) : braces (t ++ u) = braces t ++ braces u :=
  List.filter_append t u

theorem braces_cons (c : Char) (t : Text) :
    braces (c :: t) = if isBrace c then c :: braces t else braces t :=
  List.filter_cons

theorem braces_cons_of_not (h : isBrace c = false) (t : Text) : braces (c :: t) = braces t :=
  List.filter_cons_of_neg (by simp [h])

theorem braces_eq_nil_iff : braces t = [] ↔ Braceless t := by
  rw [braces, List.filter_eq_nil_iff]
  constructor
  · exact fun h => ⟨fun hc => h _ hc rfl, fun hc => h _ hc rfl⟩
  · rintro ⟨hopen, hclose⟩ c hc hbrace
    rcases Bool.or_eq_true_iff.mp hbrace with he | he
    · exact hopen (beq_iff_eq.mp he ▸ hc)
    · exact hclose (beq_iff_eq.mp he ▸ hc)

theorem braces_substitute (hr : r.Reads P) (hP : ∀ f out, P f out → braces out = braces f)
    (t : Text) : braces (substitute r t) = braces t := by
  have h := hr.atOnce_substitute t
  generalize substitute r t = u at h
  induction h with
  | nil => rfl
  | keep hc h ih => rw [braces_cons, braces_cons, ih]
  | write hf h ih => rw [braces_append, braces_append, hP _ _ hf, ih]

theorem reads_literal (hold : old ≠ []) (new : Text) :
    (literal old new).Reads fun f out => f = old ∧ out = new where
  forward := forward_literal old new
  ne_nil := by
    rintro f out ⟨rfl, -⟩
    exact hold
  eq_some_iff t out rest := by
    simp only [literal, Option.map_eq_some_iff, Prod.mk.injEq, dropStart?_eq_some]
    constructor
    · rintro ⟨u, rfl, rfl, rfl⟩
      exact ⟨old, rfl, rfl, rfl⟩
    · rintro ⟨f, rfl, rfl, rfl⟩
      exact ⟨rest, rfl, rfl, rfl⟩

theorem braces_replace (hold : old ≠ []) (h : braces new = braces old) (t : Text) :
    braces (replace t old new) = braces t := by
  refine braces_substitute (reads_literal hold new) ?_ t
  rintro f out ⟨rfl, rfl⟩
  exact h

end Text

namespace Declaration

variable {f name out word : Text}

theorem braces_blank {w : Text} (hw : Blank w) : braces w = [] :=
  braces_eq_nil_iff.mpr ⟨fun h => absurd (hw _ h) (by decide), fun h => absurd (hw _ h) (by decide)⟩

theorem braces_of_map_fold {u : Text} (h : word.map fold = u) (hu : Braceless u) :
    braces word = [] := by
  have hfold : fold '{' = '{' ∧ fold '}' = '}' := by decide
  exact braces_eq_nil_iff.mpr
    ⟨notMem_of_map_fold h (hfold.1 ▸ hu.1), notMem_of_map_fold h (hfold.2 ▸ hu.2)⟩

theorem braces_name (h : ∀ c ∈ name, isFoldedNameChar c = true) : braces name = [] :=
  braces_eq_nil_iff.mpr ⟨fun hc => absurd (h _ hc) (by decide), fun hc => absurd (h _ hc) (by decide)⟩

theorem braces_lower (h : braces name = []) : braces (lower name) = [] := by
  obtain ⟨hopen, hclose⟩ := braces_eq_nil_iff.mp h
  have hnot : ∀ d, ¬ (97 ≤ d.toNat ∧ d.toNat ≤ 122) → d ∉ name → d ∉ lower name := by
    intro d hd hmem hlower
    obtain ⟨c, hc, he⟩ := List.mem_map.mp hlower
    exact hmem (eq_of_toLower_eq hd he ▸ hc)
  exact braces_eq_nil_iff.mpr ⟨hnot '{' (by decide) hopen, hnot '}' (by decide) hclose⟩

theorem TokenUse.braces_eq_nil (h : TokenUse f name) : braces f = [] ∧ braces (useOf name) = [] := by
  cases h with
  | @intro word blanks name ending blanks' hword hblank hne hname hending hblank' =>
    have hparts := braces_name hname
    have hplain := braces_name fun c hc => hname c (List.mem_append_left ending hc)
    constructor
    · rw [braces_append, braces_append, braces_of_map_fold hword (by decide),
        braces_cons_of_not (by decide), braces_append, braces_append, braces_append,
        braces_blank hblank, braces_blank hblank', hparts]
      rfl
    · change braces (("var(--" : Text) ++ lower name ++ ")") = []
      rw [braces_append, braces_append, braces_lower hplain]
      rfl

theorem BareUse.braces_eq (h : BareUse f out) : braces out = braces f := by
  obtain ⟨hf⟩ := h
  rw [hf.braces_eq_nil.1, hf.braces_eq_nil.2]

theorem braces_alphaPercentage (a : Text) : braces (alphaPercentage a) = braces a := by
  have hall : ∀ {q : Char → Bool}, q '{' = false → q '}' = false → ∀ c, isBrace c = true → q c = false := by
    intro q hopen hclose c hc
    rcases Bool.or_eq_true_iff.mp hc with he | he
    · exact beq_iff_eq.mp he ▸ hopen
    · exact beq_iff_eq.mp he ▸ hclose
  exact filter_alphaPercentage (hall (by decide) (by decide)) (hall (by decide) (by decide))
    (by decide) a

theorem FunctionUse.braces_eq (h : FunctionUse f out) : braces out = braces f := by
  cases h with
  | plain hword hblank hf hblank' =>
    rw [hf.braces_eq_nil.2, braces_append, braces_append, braces_of_map_fold hword (by decide),
      braces_cons_of_not (by decide), braces_append, braces_append, braces_blank hblank,
      braces_blank hblank', hf.braces_eq_nil.1]
    rfl
  | mixed hword hblank hf hblank' =>
    have hfixed : braces "color-mix(in oklab, " = [] ∧ braces " " = [] ∧
        braces ", transparent)" = [] ∧ braces [')'] = [] := by decide
    obtain ⟨hmix, hspace, hend, hparen⟩ := hfixed
    simp only [braces_append, hmix, hspace, hend, hparen, hf.braces_eq_nil, braces_alphaPercentage,
      braces_of_map_fold hword (by decide), braces_cons_of_not (c := '(') (by decide),
      braces_cons_of_not (c := '/') (by decide), braces_blank hblank, braces_blank hblank',
      List.nil_append, List.append_nil]

theorem braces_replaceHsl (t : Text) : braces (replaceHsl t) = braces t := by
  rw [replaceHsl]
  split_ifs
  · rw [replaceBareHsl, braces_substitute reads_bareHsl (fun _ _ => BareUse.braces_eq),
      braces_substitute reads_hslFunction fun _ _ => FunctionUse.braces_eq]
  · rfl

end Declaration

theorem CustomCss.braces_forRoot {root : Text} (hroot : Braceless root) (snippet : Text) :
    braces (CustomCss.forRoot snippet root) = braces snippet := by
  have hroot' : braces root = braces CustomCss.rootMark := braces_eq_nil_iff.mpr hroot
  rw [CustomCss.forRoot, Declaration.braces_replaceHsl, braces_replace (by decide) hroot']

section Flat

variable {t : Text}

theorem braces_flatSheet (rules : List FlatRule) {rest : Text} (hrest : Braceless rest) :
    braces (flatSheet rules rest) = (rules.map fun _ => ['{', '}']).flatten := by
  induction rules with
  | nil => exact braces_eq_nil_iff.mpr hrest
  | cons r rules ih =>
    have hopen : ∀ u, braces ('{' :: u) = '{' :: braces u := fun u => rfl
    have hclose : ∀ u, braces ('}' :: u) = '}' :: braces u := fun u => rfl
    rw [flatSheet, braces_append, hopen, braces_append, hclose, ih,
      braces_eq_nil_iff.mpr r.prelude_braceless, braces_eq_nil_iff.mpr r.body_braceless]
    rfl

/-- A text is a flat stylesheet if its braces are those of one. -/
theorem exists_flatSheet_of_braces {rules : List FlatRule}
    (h : braces t = (rules.map fun _ => ['{', '}']).flatten) :
    ∃ rules' rest, rules'.length = rules.length ∧ Braceless rest ∧ t = flatSheet rules' rest := by
  induction rules generalizing t with
  | nil => exact ⟨[], t, rfl, braces_eq_nil_iff.mp h, rfl⟩
  | cons r rules ih =>
    obtain ⟨p, u, rfl, hp, -, hu⟩ := List.filter_eq_cons_iff.mp h
    obtain ⟨b, v, rfl, hb, -, hv⟩ := List.filter_eq_cons_iff.mp hu
    obtain ⟨rules', rest, hlen, hrest, rfl⟩ := ih hv
    exact ⟨⟨p, b, braces_eq_nil_iff.mp (List.filter_eq_nil_iff.mpr hp),
      braces_eq_nil_iff.mp (List.filter_eq_nil_iff.mpr hb)⟩ :: rules', rest, by simp [hlen], hrest, rfl⟩

theorem CustomCss.exists_flatSheet_forRoot {root rest : Text} (hroot : Braceless root)
    (rules : List FlatRule) (hrest : Braceless rest) :
    ∃ rules' rest', rules'.length = rules.length ∧ Braceless rest' ∧
      CustomCss.forRoot (flatSheet rules rest) root = flatSheet rules' rest' := by
  refine exists_flatSheet_of_braces ?_
  rw [braces_forRoot hroot, braces_flatSheet rules hrest]

end Flat

end Restyle
