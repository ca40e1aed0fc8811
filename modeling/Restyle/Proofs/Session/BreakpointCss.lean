import Restyle.Proofs.Stylesheet.Bracing
import Restyle.Proofs.Utility.RuleSearch
import Restyle.Session.ClassCss

/-! # Custom CSS of a class for a breakpoint

Of a flat snippet for a breakpoint the first rule is kept whose prelude ends with
the class, wherever the class begins in it. Where another rule than the one for
the class alone comes first, its declarations are taken for those of the class.
-/

namespace Restyle

open Text

variable {r : Resolver} {c : GlobalClass} {rules : List FlatRule} {rest bp media : Text}

/-- Where one search stops at everything that a second one stops at, both give the same exactly if
what the first one stops at looks like what the second one does. -/
theorem find?_map_eq_iff {α β : Type} {p q : α → Bool} {f : α → β} {l : List α}
    (h : ∀ a, q a = true → p a = true) : (l.find? p).map f = (l.find? q).map f ↔
      ∀ a ∈ l.find? p, ∃ b ∈ l.find? q, f b = f a := by
  cases hp : l.find? p with
  | none =>
    have hq : l.find? q = none := by
      rw [List.find?_eq_none] at hp ⊢
      exact fun a ha hqa => hp a ha (h a hqa)
    simp [hq]
  | some a => simp [eq_comm, Option.map_eq_some_iff]

namespace GlobalClass

/-- The declarations of a rule in a media query. -/
def inMedia (media : Text) (q : FlatRule) : Text :=
  media ++ " \x7b\n  " ++ trim q.body ++ "\n\x7d"

/-- The prelude of a rule ends with the class. -/
def EndsPrelude (c : GlobalClass) (q : FlatRule) : Prop :=
  Utility.EndsNamed (fun _ => true) c.targetName q.prelude

/-- A rule is for the class alone. -/
def IsWhole (c : GlobalClass) (q : FlatRule) : Prop :=
  trim q.prelude = c.selector

instance (c : GlobalClass) (q : FlatRule) : Decidable (c.EndsPrelude q) :=
  inferInstanceAs (Decidable (Utility.EndsNamed _ _ _))

instance (c : GlobalClass) (q : FlatRule) : Decidable (c.IsWhole q) :=
  inferInstanceAs (Decidable (_ = _))

theorem inMedia_inj {q q' : FlatRule} :
    inMedia media q = inMedia media q' ↔ trim q.body = trim q'.body := by
  rw [inMedia, inMedia, List.append_left_inj, List.append_right_inj]

theorem IsWhole.endsPrelude {q : FlatRule} (h : c.IsWhole q) : c.EndsPrelude q := by
  obtain ⟨w, w', hw, hw', he⟩ := exists_eq_trim q.prelude
  have hnamed : Utility.IsNamed c.targetName (trim q.prelude ++ w') :=
    ⟨w', hw', congrArg (· ++ w') h⟩
  rw [List.append_assoc] at he
  rcases List.eq_nil_or_concat w with rfl | ⟨x, d, rfl⟩
  · exact Or.inl (he ▸ hnamed)
  · refine Or.inr ⟨x, d, trim q.prelude ++ w', ?_, rfl, hnamed⟩
    simpa using he

theorem selector_braceless (hname : ∀ d ∈ c.targetName, isNameChar d = true) :
    Braceless c.selector :=
  Utility.IsNamed.braceless hname ⟨[], Blank.nil, by rw [selector, List.append_nil]⟩

/-- In a flat snippet the first rule counts whose prelude ends with the class. -/
theorem ownRule?_flatSheet (hname : ∀ d ∈ c.targetName, isNameChar d = true)
    (rules : List FlatRule) (hrest : Braceless rest) :
    c.ownRule? (flatSheet rules rest) = (rules.find? (c.EndsPrelude ·)).map (·.body) := by
  rw [ownRule?, Utility.find?_bodyOf?, Utility.bodyBehind?_flatSheet hname rfl rfl rules hrest]
  rfl

theorem eq_nil_of_text?_eq_none {root snippet : Text} (hroot : Braceless root) (hrest : Braceless rest)
    (hflat : CustomCss.forRoot snippet root = flatSheet rules rest)
    (h : (Setting.scalar snippet).text? = none) : rules = [] := by
  have hsnippet : snippet = [] ∨ snippet = "0" := by
    by_contra hne
    rw [Setting.text?, if_neg (by simpa using hne)] at h
    exact absurd h (Option.some_ne_none _)
  have hnone : braces snippet = [] := by
    rcases hsnippet with rfl | rfl <;> decide
  rw [← CustomCss.braces_forRoot hroot, hflat, braces_flatSheet rules hrest] at hnone
  rcases rules with _ | ⟨q, rules⟩
  · rfl
  · exact absurd hnone (by simp)

/-- Of a snippet for a breakpoint the first rule whose prelude ends with the class is kept. -/
theorem breakpointBlock?_eq (hname : ∀ d ∈ c.targetName, isNameChar d = true) (r : Resolver)
    (bp : Text) {snippet : Text} (hrest : Braceless rest)
    (hflat : CustomCss.forRoot snippet c.selector = flatSheet rules rest) :
    breakpointBlock? r c (Resolver.customCssMark ++ bp, .scalar snippet) =
      (r.query? bp).bind fun media => (rules.find? (c.EndsPrelude ·)).map (inMedia media) := by
  rw [breakpointBlock?, dropStart?_append]
  cases htext : (Setting.scalar snippet).text? with
  | none =>
    obtain rfl := eq_nil_of_text?_eq_none (selector_braceless hname) hrest hflat htext
    cases r.query? bp <;> rfl
  | some t =>
    obtain rfl : snippet = t := by
      rw [Setting.text?] at htext
      split_ifs at htext
      exact Option.some.inj htext
    simp only [Option.bind_eq_bind, Option.bind_some, hflat, ownRule?_flatSheet hname rules hrest]
    cases r.query? bp with
    | none => rfl
    | some media => cases rules.find? (c.EndsPrelude ·) <;> rfl

/-- A snippet of flat rules is one for the class as well, and of that the first rule whose prelude
ends with the class is kept for the breakpoint. This is what the first rule for the class alone has,
or nothing if there is none, exactly if the rule that is kept has the declarations of that one. -/
theorem breakpointBlock_own_iff (hname : ∀ d ∈ c.targetName, isNameChar d = true)
    (hrest : Braceless rest) (rules : List FlatRule) (r : Resolver) (bp : Text) :
    (∃ rules' rest', rules'.length = rules.length ∧ Braceless rest' ∧
      CustomCss.forRoot (flatSheet rules rest) c.selector = flatSheet rules' rest') ∧
      ∀ rules' rest', Braceless rest' →
        CustomCss.forRoot (flatSheet rules rest) c.selector = flatSheet rules' rest' →
        (breakpointBlock? r c (Resolver.customCssMark ++ bp, .scalar (flatSheet rules rest)) =
          (r.query? bp).bind fun media => (rules'.find? (c.EndsPrelude ·)).map (inMedia media)) ∧
        ∀ media, r.query? bp = some media →
          (breakpointBlock? r c (Resolver.customCssMark ++ bp, .scalar (flatSheet rules rest)) =
            (rules'.find? (c.IsWhole ·)).map (inMedia media) ↔
          ∀ q ∈ rules'.find? (c.EndsPrelude ·), ∃ own ∈ rules'.find? (c.IsWhole ·),
            trim own.body = trim q.body) := by
  refine ⟨CustomCss.exists_flatSheet_forRoot (selector_braceless hname) rules hrest, ?_⟩
  intro rules' rest' hrest' hflat
  have hblock := breakpointBlock?_eq hname r bp hrest' hflat
  refine ⟨hblock, fun media hmedia => ?_⟩
  rw [hblock, hmedia, Option.bind_some, find?_map_eq_iff fun q hq => ?_]
  · simp only [inMedia_inj]
  · exact decide_eq_true (of_decide_eq_true hq).endsPrelude

/-- A rule for a state of the class in front of the rule for the class. -/
theorem breakpointBlock_own_behind_hover :
    (∀ d ∈ targetName ⟨"card", "card", [], []⟩, isNameChar d = true) ∧ Braceless [] ∧
      breakpointBlock? {} ⟨"card", "card", [], []⟩ ("_cssCustom:tablet_portrait",
        .scalar ("%root%:hover{gap:0}%root%{gap:1rem}" : String)) =
          some "@media (width <= to-rem(991px)) \x7b\n  gap:1rem\n\x7d" := by
  have hname : ∀ d ∈ targetName ⟨"card", "card", [], []⟩, isNameChar d = true := by decide
  have hempty : Braceless [] := by decide
  have hkept := ((breakpointBlock_own_iff hname hempty
    [⟨"%root%:hover", "gap:0", by decide, by decide⟩,
      ⟨"%root%", "gap:1rem", by decide, by decide⟩] {} "tablet_portrait").2
    [⟨".card:hover", "gap:0", by decide, by decide⟩,
      ⟨".card", "gap:1rem", by decide, by decide⟩] [] hempty (by decide)).2
    "@media (width <= to-rem(991px))" (by decide)
  refine ⟨hname, hempty, hkept.mpr fun q hq => ?_⟩
  exact ⟨⟨".card", "gap:1rem", by decide, by decide⟩, rfl, by rw [← Option.some.inj hq]⟩

/-- A rule for the class inside something else is kept as if it was for the class alone. -/
theorem breakpointBlock_descendant :
    breakpointBlock? {} ⟨"card", "card", [], []⟩ ("_cssCustom:tablet_portrait",
      .scalar (".dark %root%{color:red}" : String)) =
        some "@media (width <= to-rem(991px)) \x7b\n  color:red\n\x7d" ∧
      ¬ ∀ (c : GlobalClass) (r : Resolver) (bp media : Text) (rules rules' : List FlatRule),
        (∀ d ∈ c.targetName, isNameChar d = true) → r.query? bp = some media →
        CustomCss.forRoot (flatSheet rules []) c.selector = flatSheet rules' [] →
        breakpointBlock? r c (Resolver.customCssMark ++ bp, .scalar (flatSheet rules [])) =
          (rules'.find? (c.IsWhole ·)).map (inMedia media) := by
  refine ⟨rfl, fun h => ?_⟩
  have hdark := h ⟨"card", "card", [], []⟩ {} "tablet_portrait" "@media (width <= to-rem(991px))"
    [⟨".dark %root%", "color:red", by decide, by decide⟩]
    [⟨".dark .card", "color:red", by decide, by decide⟩] (by decide) (by decide) (by decide)
  exact absurd hdark (by decide)

end GlobalClass

end Restyle
