import Restyle.Proofs.Session.CustomStyles
import Restyle.Proofs.Stylesheet.SingleRule

/-! # Where the styles of an element meet

The settings of an element are filed under its target id. Its custom CSS is
written for its selector in the source, which is renamed before the stylesheet
is read. The two ids are made in different ways, and the styles meet exactly if
the id without its mark is a name.
-/

namespace Restyle

open Text Selector

namespace Element

variable {id : Text}

/-- An id without the sharps before it and without its mark. -/
def stem (id : Text) : Text :=
  ((dropStart? (bareId id) targetMark).or (dropStart? (bareId id) sourceMark)).getD (bareId id)

def isMarked (id : Text) : Bool :=
  ((dropStart? (bareId id) targetMark).or (dropStart? (bareId id) sourceMark)).isSome

theorem bareId_cases (id : Text) :
    isMarked id = true ∧ bareId id = targetMark ++ stem id ∨
      isMarked id = true ∧ bareId id = sourceMark ++ stem id ∨
      isMarked id = false ∧ bareId id = stem id ∧ dropStart? (bareId id) targetMark = none ∧
        dropStart? (bareId id) sourceMark = none := by
  unfold isMarked stem
  cases htarget : dropStart? (bareId id) targetMark with
  | some rest => exact Or.inl ⟨rfl, dropStart?_eq_some.mp htarget⟩
  | none =>
    cases hsource : dropStart? (bareId id) sourceMark with
    | some rest => exact Or.inr (Or.inl ⟨rfl, dropStart?_eq_some.mp hsource⟩)
    | none => exact Or.inr (Or.inr ⟨rfl, rfl, rfl, rfl⟩)

def targetStem (id : Text) : Text :=
  if isMarked id then stem id else (stem id).filter isNameChar

theorem targetId_eq (h : targetId id ≠ []) : targetId id = targetMark ++ targetStem id := by
  rcases bareId_cases id with ⟨hm, hid⟩ | ⟨hm, hid⟩ | ⟨hm, hid, htarget, hsource⟩
  · rw [targetStem, if_pos hm, targetId, hid, startsWith_eq_isSome, dropStart?_append]
    rfl
  · rw [targetStem, if_pos hm, targetId, hid, dropStart?_append]
    rfl
  · unfold targetId at h ⊢
    simp only [startsWith_eq_isSome, htarget, hsource, Option.isSome_none, Bool.false_eq_true,
      if_false] at h ⊢
    split_ifs at h ⊢ with hempty
    · exact absurd rfl h
    · rw [targetStem, hm, if_neg Bool.false_ne_true, ← hid]

theorem bareId_ne_nil (h : targetId id ≠ []) : bareId id ≠ [] := by
  intro hid
  rw [targetId, hid] at h
  exact h rfl

theorem rootSelector_eq (h : bareId id ≠ []) :
    rootSelector id = '#' :: (sourceMark ++ stem id) := by
  unfold rootSelector
  simp only [List.isEmpty_eq_false_iff.mpr h, Bool.false_eq_true, if_false]
  rcases bareId_cases id with ⟨-, hid⟩ | ⟨-, hid⟩ | ⟨-, hid, htarget, hsource⟩
  · have hsource : (targetMark ++ stem id).startsWith sourceMark = false := rfl
    rw [hid, hsource, if_neg Bool.false_ne_true, dropStart?_append]
    rfl
  · rw [hid, startsWith_eq_isSome, dropStart?_append]
    rfl
  · rw [startsWith_eq_isSome, hsource, htarget, hid]
    rfl

theorem startsBuilderId_sourceMark {t : Text} :
    StartsBuilderId ('#' :: (sourceMark ++ t)) ↔ StartsName t := by
  constructor
  · rintro ⟨mark, rest, he, hmark, hrest⟩
    have hlen : sourceMark.length = mark.length := (length_mark hmark).symm
    obtain ⟨-, rfl⟩ := List.append_inj (List.cons.inj he).2 hlen
    exact hrest
  · exact fun h => ⟨sourceMark, t, rfl, rfl, h⟩

theorem renameIds_rootSelector (h : bareId id ≠ []) : renameIds (rootSelector id) =
    '#' :: (if StartsName (stem id) then targetMark else sourceMark) ++ renameIds (stem id) := by
  rw [rootSelector_eq h]
  split_ifs with hname
  · exact renameIds_builderId rfl hname
  · rw [renameIds_cons (mt startsBuilderId_sourceMark.mp hname),
      renameIds_append_of_notMem (by decide)]
    rfl

/-- The renamed part is that of the target id only if nothing changes in it and nothing is dropped. -/
theorem renameIds_stem_iff : renameIds (stem id) = targetStem id ↔
    renameIds (stem id) = stem id ∧ (isMarked id = true ∨ (stem id).all isNameChar = true) := by
  rw [targetStem]
  by_cases hm : isMarked id = true
  · simp [hm]
  · rw [if_neg hm]
    constructor
    · intro h
      -- Renaming may change characters, so only the lengths tell that the filter drops none.
      have hlen := congrArg List.length h
      rw [length_renameIds, eq_comm, List.length_filter_eq_length_iff] at hlen
      exact ⟨h.trans (List.filter_eq_self.mpr hlen), Or.inr (List.all_eq_true.mpr hlen)⟩
    · rintro ⟨hself, hall⟩
      have hfilter := List.filter_eq_self.mpr (List.all_eq_true.mp (hall.resolve_left hm))
      rw [hself, hfilter]

theorem renameIds_rootSelector_iff (h : targetId id ≠ []) :
    renameIds (rootSelector id) = '#' :: targetId id ↔
      StartsName (stem id) ∧ (∀ v, v <:+ stem id → ¬ StartsBuilderId v) ∧
        (isMarked id = true ∨ (stem id).all isNameChar = true) := by
  rw [renameIds_rootSelector (bareId_ne_nil h), targetId_eq h, ← renameIds_eq_self_iff,
    ← renameIds_stem_iff, List.cons_append, List.cons.injEq]
  by_cases hname : StartsName (stem id)
  · simp [hname]
  · rw [if_neg hname]
    refine iff_of_false (fun he => ?_) fun he => hname he.1
    exact absurd (List.cons.inj he.2).1 (by decide)

end Element

namespace CustomCss

/-- A snippet `%root% { … }`: the white space in front of the first brace, and the body. -/
structure RootRule where
  space : Text
  body : Text
  blank : Blank space

namespace RootRule

def snippet (rule : RootRule) : Text :=
  rootMark ++ rule.space ++ '{' :: rule.body ++ ['}']

def forSelector (rule : RootRule) (root : Text) : Text :=
  rule.snippet.replace rootMark root

def bodyFor (rule : RootRule) (root : Text) : Text :=
  renameIds (rule.body.replace rootMark root)

variable (rule : RootRule) (root : Text)

theorem forSelector_eq : rule.forSelector root =
    root ++ rule.space ++ '{' :: (rule.body.replace rootMark root ++ ['}']) := by
  have hsplit : rule.snippet = rootMark ++ (rule.space ++ ['{'] ++ (rule.body ++ ['}'])) := by
    simp [snippet]
  have hspace : '%' ∉ rule.space ++ ['{'] := by
    simpa using fun h => rule.blank.ne_of_mem h (by decide) rfl
  have hbody : (rule.body ++ ['}']).replace rootMark root =
      rule.body.replace rootMark root ++ ['}'] :=
    substitute_append_cons (forward_literal _ _) (stopsAt_literal (by decide) (by decide) root) _ []
  have hrest : (rule.space ++ ['{'] ++ (rule.body ++ ['}'])).replace rootMark root =
      rule.space ++ ['{'] ++ (rule.body ++ ['}']).replace rootMark root :=
    replace_append_of_notMem hspace "root%" root _
  rw [forSelector, hsplit, replace_append (by decide), hrest, hbody]
  simp

theorem renameIds_forSelector : renameIds (rule.forSelector root) =
    renameIds root ++ rule.space ++ '{' :: rule.bodyFor root ++ ['}'] := by
  rw [forSelector_eq, renameIds_append_cons (by decide) (by decide),
    renameIds_append_blank _ rule.blank, renameIds_append_cons (by decide) (by decide)]
  simp [bodyFor, renameIds_of_notMem]

end RootRule

end CustomCss

namespace Element

open CustomCss

variable {id : Text}

/-- The selector of an id in the source is renamed to that of the target id, and custom CSS for it is
filed under the same style and selector as the settings of any element with the id. -/
structure Meets (id : Text) : Prop where
  selector : renameIds (rootSelector id) = '#' :: targetId id
  style : ∀ (rule : RootRule) (r : Resolver) (e : Element), IsBody (rule.bodyFor (rootSelector id)) →
    e.id = id → settingsCss r e.settings ≠ [] →
      (idStyles (rule.forSelector (rootSelector id))).map (fun p => (p.1, p.2.selector)) =
        (addSettings r [] e).map fun p => (p.1, p.2.selector)

theorem addSettings_nil {e : Element} (he : targetId e.id ≠ []) (r : Resolver)
    (hcss : settingsCss r e.settings ≠ []) :
    addSettings r [] e = [(Style.elementId (targetId e.id),
      Style.ofSelector (Style.elementId (targetId e.id)) ('#' :: targetId e.id)
        (Declaration.toLogical (settingsCss r e.settings)))] := by
  have hskip : ((targetId e.id).isEmpty || (settingsCss r e.settings).isEmpty) = false := by
    simp [he, hcss]
  rw [addSettings]
  simp only [hskip, Bool.false_eq_true, if_false]
  rfl

theorem targetStem_of_all (h : (stem id).all isNameChar = true) : targetStem id = stem id := by
  rw [targetStem, List.filter_eq_self.mpr (List.all_eq_true.mp h), ite_self]

def targetToken (h : (stem id).all isNameChar = true) : Token where
  sigil := '#'
  name := targetMark ++ stem id
  sigil_eq := Or.inr rfl
  name_ne_nil := List.cons_ne_nil _ _
  all_isNameChar := by
    rw [List.all_append, h]
    rfl

theorem targetToken_text (h : (stem id).all isNameChar = true) :
    (targetToken h).text = '#' :: (targetMark ++ stem id) := rfl

theorem targetToken_name (h : (stem id).all isNameChar = true) :
    (targetToken h).name = targetMark ++ stem id := rfl

theorem renameIds_rootSelector_of_all (ht : targetId id ≠ []) (hne : stem id ≠ [])
    (h : (stem id).all isNameChar = true) : renameIds (rootSelector id) = (targetToken h).text := by
  have hsharp : '#' ∉ stem id := fun hmem =>
    absurd (List.all_eq_true.mp h '#' hmem) (by decide)
  rw [renameIds_rootSelector (bareId_ne_nil ht), if_pos (startsName_of_all hne h),
    renameIds_of_notMem hsharp]
  rfl

theorem idStyles_forSelector (ht : targetId id ≠ []) (hne : stem id ≠ [])
    (h : (stem id).all isNameChar = true) (rule : RootRule)
    (hbody : IsBody (rule.bodyFor (rootSelector id))) :
    idStyles (rule.forSelector (rootSelector id)) =
      [(Style.elementId (targetMark ++ stem id), Style.ofSelector
        (Style.elementId (targetMark ++ stem id)) ('#' :: (targetMark ++ stem id))
        (Node.formatBody (Node.ofText (rule.bodyFor (rootSelector id)))))] := by
  have hnodes : Node.ofText (renameIds (rule.forSelector (rootSelector id))) =
      [.block (targetToken h).text (Node.ofText (rule.bodyFor (rootSelector id)))] := by
    have hsegment := (targetToken h).segment_text.append_blank rule.blank
    rw [rule.renameIds_forSelector, renameIds_rootSelector_of_all ht hne h,
      hsegment.ofText_block hbody, trim_append_blank _ rule.blank,
      (targetToken h).trimmed_text.trim_eq]
  have hstyles := Token.idStyles_block (k := targetToken h) rfl rfl hnodes hbody.prints
  rwa [targetToken_text, targetToken_name] at hstyles

theorem meets_of_all (ht : targetId id ≠ []) (hne : stem id ≠ [])
    (h : (stem id).all isNameChar = true) : Meets id := by
  have hid : targetId id = targetMark ++ stem id := by rw [targetId_eq ht, targetStem_of_all h]
  constructor
  case selector => rw [renameIds_rootSelector_of_all ht hne h, targetToken_text, hid]
  case style =>
    intro rule r e hbody he hcss
    subst he
    rw [idStyles_forSelector ht hne h rule hbody, addSettings_nil ht r hcss, hid]
    simp [Style.ofSelector]

theorem exists_token_of_mem_idStyles {css : Text} {p : Text × Style} (hp : p ∈ idStyles css) :
    ∃ k : Token, p.2.selector = k.text := by
  have hnames : ∀ name ∈ selectorNames (renameIds css) '#', ∃ k : Token, k.text = '#' :: name :=
    fun name hname => OwnPart.exists_token (Or.inr rfl) hname
  rw [idStyles_eq] at hp
  refine List.foldlRecOn (motive := fun styles => ∀ p ∈ styles, ∃ k : Token, p.2.selector = k.text)
    _ _ (by simp) (fun styles hstyles name hname p hp => ?_) p hp
  unfold addIdCss at hp
  dsimp only at hp
  split_ifs at hp
  · exact hstyles p hp
  · rcases Table.mem_set hp with rfl | hp
    · obtain ⟨k, hk⟩ := hnames name hname
      exact ⟨k, hk.symm⟩
    · exact hstyles p hp

def shown (id : Text) : Element :=
  ⟨id, "div", [("_display", .scalar "block"), (CustomCss.key, .scalar "%root% { color: red; }")]⟩

theorem settingsCss_shown (id : Text) : settingsCss {} (shown id).settings = "display: block;" := by
  have hblock : settingsCss {} (shown []).settings = "display: block;" := by decide +kernel
  exact hblock

def plainRule : RootRule where
  space := []
  body := "c:d"
  blank := Blank.nil

theorem Meets.all_isNameChar (hm : Meets id) (ht : targetId id ≠ []) :
    (targetId id).all isNameChar = true := by
  have hbody : IsBody (plainRule.bodyFor (rootSelector id)) := by
    have hplain : plainRule.bodyFor (rootSelector id) = "c:d" := rfl
    rw [hplain]
    decide
  have hcss : settingsCss {} (shown id).settings ≠ [] := by
    rw [settingsCss_shown]
    decide
  -- Styles of a stylesheet are those of tokens, so the selector they share with the settings is one.
  have hstyle := hm.style plainRule {} (shown id) hbody rfl hcss
  rw [addSettings_nil (e := shown id) ht {} hcss, List.map_singleton] at hstyle
  obtain ⟨p, hp, hselector⟩ := List.mem_map.mp (hstyle ▸ List.mem_singleton_self _)
  obtain ⟨k, hk⟩ := exists_token_of_mem_idStyles hp
  have htext : '#' :: targetId id = k.text := (Prod.mk.inj hselector).2.symm.trans hk
  rw [(List.cons.inj htext).2]
  exact k.all_isNameChar

theorem Meets.all_stem (hm : Meets id) (ht : targetId id ≠ []) :
    (stem id).all isNameChar = true := by
  have htarget := hm.all_isNameChar ht
  rw [targetId_eq ht, List.all_append, Bool.and_eq_true] at htarget
  rcases ((renameIds_rootSelector_iff ht).mp hm.selector).2.2 with hmarked | hall
  · have hstem : targetStem id = stem id := if_pos hmarked
    exact hstem ▸ htarget.2
  · exact hall

/-- For every id: if nothing of it is left without white space and sharps, it has no selector in the
source. Otherwise this selector is renamed to that of the target id exactly if a name begins behind
the mark, no other id of the source builder stands in it, and nothing is dropped from it; and the
custom CSS and the settings of the element meet in one style exactly if it is a name behind the
mark. -/
theorem meets_iff (id : Text) :
    (bareId id = [] → rootSelector id = []) ∧
      (targetId id ≠ [] →
        (renameIds (rootSelector id) = '#' :: targetId id ↔
          StartsName (stem id) ∧ (∀ v, v <:+ stem id → ¬ StartsBuilderId v) ∧
            (isMarked id = true ∨ (stem id).all isNameChar = true)) ∧
        (Meets id ↔ stem id ≠ [] ∧ (stem id).all isNameChar = true)) := by
  constructor
  · intro hid
    rw [rootSelector, hid]
    rfl
  · intro ht
    refine ⟨renameIds_rootSelector_iff ht, fun hm => ⟨fun hnil => ?_, hm.all_stem ht⟩, fun h => ?_⟩
    · obtain ⟨⟨c, hc, -⟩, -⟩ := (renameIds_rootSelector_iff ht).mp hm.selector
      rw [hnil] at hc
      exact absurd hc (by simp)
    · exact meets_of_all ht h.1 h.2

/-- The styles of an id with the mark of the source meet, those of a bare id with another character
in it do not. -/
theorem meets_iff_bare : Meets "brxe-abc" ∧ ¬ Meets "hero!main" :=
  ⟨((meets_iff "brxe-abc").2 (by decide)).2.mpr (by decide),
    mt ((meets_iff "hero!main").2 (by decide)).2.mp (by decide)⟩

/-- The settings of an element are filed under the target id, its snippet under the name that the
selector of the source begins with. -/
theorem snippet_astray :
    targetId "hero!main" = "etch-heromain" ∧
      renameIds (rootSelector "hero!main") = "#etch-hero!main" ∧
      (addSettings {} [] (shown "hero!main")).map (fun p => (p.2.selector, p.2.css)) =
        [(("#etch-heromain" : Text), ("display: block;" : Text))] ∧
      (Session.customStyles (customCss {} (shown "hero!main")) []).map (fun p =>
          (p.2.selector, p.2.css)) =
        [(("#etch-hero" : Text), ("&!main \x7b\n  color: red;\n\x7d" : Text))] := by
  refine ⟨by decide, by decide, ?_, by decide +kernel⟩
  have hcss := settingsCss_shown "hero!main"
  rw [addSettings_nil (by decide) {} (by rw [hcss]; decide), hcss]
  decide +kernel

end Element

end Restyle
