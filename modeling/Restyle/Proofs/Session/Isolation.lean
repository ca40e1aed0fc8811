import Restyle.Proofs.Session.Conversion
import Restyle.Proofs.Stylesheet.Leaking

/-! # Isolation of classes from each other

All custom CSS is read as one stylesheet, so what one class leaves open reaches
into the classes and elements behind it. The custom stylesheet of a class keeps
away from all other styles exactly if it is closed.
-/

namespace Restyle

open Text Table

/-- A class that becomes a style if all classes do. -/
structure GlobalClass.Converts (c : GlobalClass) : Prop where
  named : (c.id.trim.isEmpty && c.name.trim.isEmpty) = false
  candidate : Session.isCandidate c = true

def StyleSet.css? (styles : StyleSet) (key : Text) : Option Text :=
  (Table.get? styles key).map (·.css)

/-- In any conversion the custom CSS of a class may be replaced without changing any other style,
if both keep to the class and no class in front leaves anything open. -/
def GlobalClass.Isolated (c : GlobalClass) (snippet : Text) : Prop :=
  ∀ (s : Session) (settings : Settings) (before after : List GlobalClass) (items : List Item)
    (snippet' : Text), (∀ b ∈ before, Snippet.Complete (CustomCss.tidied b.customCss)) →
    Snippet.Closed (c.sheetPart snippet') → Snippet.KeepsTo c.selector (c.sheetPart snippet') →
    ∀ key, key ≠ Style.classId c.selector →
      (s.convert (before ++ c.withCustomCss settings snippet :: after) items).1.styles.css? key =
        (s.convert (before ++ c.withCustomCss settings snippet' :: after) items).1.styles.css? key

namespace Session

variable {c : GlobalClass} {snippet : Text} {before : List GlobalClass}

theorem complete_tidied_flatMap
    (h : ∀ b ∈ before, Snippet.Complete (CustomCss.tidied b.customCss)) :
    Snippet.Complete (CustomCss.tidied (before.flatMap (·.customCss))) := by
  induction before with
  | nil => exact Snippet.complete_of_blank Blank.nil
  | cons b before ih =>
    rw [List.flatMap_cons, CustomCss.tidied_append b.wholeLines_customCss]
    exact (h b List.mem_cons_self).append (ih fun d hd => h d (List.mem_cons_of_mem b hd))

/-- Taking away a closed custom stylesheet that keeps to its class changes no other style. -/
theorem sameExcept_convert
    (hbefore : ∀ b ∈ before, Snippet.Complete (CustomCss.tidied b.customCss))
    (hclosed : Snippet.Closed (c.sheetPart snippet))
    (hown : Node.MentionOnly c.selector (Node.ofText (c.sheetPart snippet)))
    (s : Session) (settings : Settings) (after : List GlobalClass) (items : List Item) :
    SameExcept (Style.classId c.selector)
      (s.convert (before ++ c.withCustomCss settings snippet :: after) items).1.styles
      (s.convert (before ++ c.withCustomCss settings [] :: after) items).1.styles := by
  have hfilter : ∀ b ∈ before.filter (s.migrates items),
      Snippet.Complete (CustomCss.tidied b.customCss) :=
    fun b hb => hbefore b (List.mem_filter.mp hb).1
  rw [convert_styles, convert_styles, List.filter_append, List.filter_append]
  cases hc : s.migrates items c with
  | false =>
    have hskip : ∀ snippet, ¬ s.migrates items (c.withCustomCss settings snippet) = true := by
      intro snippet
      rw [migrates_withCustomCss, hc]
      exact Bool.false_ne_true
    rw [List.filter_cons_of_neg (hskip snippet), List.filter_cons_of_neg (hskip [])]
    exact .refl _ _
  | true =>
    have htake : ∀ snippet, s.migrates items (c.withCustomCss settings snippet) = true :=
      fun snippet => (migrates_withCustomCss s items c settings snippet).trans hc
    rw [List.filter_cons_of_pos (htake snippet), List.filter_cons_of_pos (htake []),
      foldl_mapClass_withCustomCss _ _ c settings snippet []]
    have hregular : StyleMap.Regular [] := fun r hr => absurd hr List.not_mem_nil
    exact sameExcept_stylesOf (complete_tidied_flatMap hfilter) hclosed hown _ settings
      (regular_foldl_mapClass hregular _) items _

def neighbour (name rule : Text) : GlobalClass :=
  ⟨[], name, [], [(CustomCss.key, .scalar rule)]⟩

def firstResolver : Resolver :=
  everything.resolver.forget.remember

variable {a : Char} {rule : Text}

section Neighbour

variable (ha : a = 'b' ∨ a = 'c') (hr : rule ∈ Snippet.rulesFor [a])

include ha hr

theorem neighbour_spec :
    (neighbour [a] rule).customCss = CustomCss.apart rule ∧
      CustomCss.tidied (CustomCss.apart rule) = CustomCss.apart rule ∧
      (neighbour [a] rule).css firstResolver = [] ∧
      everything.migrates [] (neighbour [a] rule) = true ∧
      selectorNames (Selector.renameIds (Declaration.tidyCustomCss (CustomCss.apart rule))) '.' =
        [[a]] ∧
      idStyles (Declaration.tidyCustomCss (CustomCss.apart rule)) = [] := by
  have hall : (['b', 'c'].all fun a => (Snippet.rulesFor [a]).all fun rule =>
      decide ((neighbour [a] rule).customCss = CustomCss.apart rule) &&
        decide (CustomCss.tidied (CustomCss.apart rule) = CustomCss.apart rule) &&
        decide ((neighbour [a] rule).css firstResolver = []) &&
        everything.migrates [] (neighbour [a] rule) &&
        decide (selectorNames (Selector.renameIds
          (Declaration.tidyCustomCss (CustomCss.apart rule))) '.' = [[a]]) &&
        (idStyles (Declaration.tidyCustomCss (CustomCss.apart rule))).isEmpty) = true := by
    decide +kernel
  have hrule := List.all_eq_true.mp (List.all_eq_true.mp hall a (by simpa using ha)) rule hr
  simpa only [Bool.and_eq_true, decide_eq_true_eq, List.isEmpty_iff, and_assoc] using hrule

theorem customCss_neighbour : (neighbour [a] rule).customCss = CustomCss.apart rule :=
  (neighbour_spec ha hr).1

theorem tidied_apart : CustomCss.tidied (CustomCss.apart rule) = CustomCss.apart rule :=
  (neighbour_spec ha hr).2.1

theorem css_neighbour : (neighbour [a] rule).css firstResolver = [] :=
  (neighbour_spec ha hr).2.2.1

theorem migrates_neighbour : everything.migrates [] (neighbour [a] rule) = true :=
  (neighbour_spec ha hr).2.2.2.1

theorem selectorNames_neighbour :
    selectorNames (Selector.renameIds (Declaration.tidyCustomCss (CustomCss.apart rule))) '.' =
        [[a]] ∧
      idStyles (Declaration.tidyCustomCss (CustomCss.apart rule)) = [] :=
  (neighbour_spec ha hr).2.2.2.2

end Neighbour

def bareStyle (a : Char) : Style :=
  Style.ofSelector (Style.classId ['.', a]) ['.', a] []

def loneMap (a : Char) : StyleMap :=
  [([a], ⟨Style.classId ['.', a], ['.', a]⟩)]

def pairMap (c : GlobalClass) (a : Char) : StyleMap :=
  (mapClass [] c).set [a] ⟨Style.classId ['.', a], ['.', a]⟩

theorem foldl_mapClass_pair (ha : a = 'b' ∨ a = 'c') (c : GlobalClass) (snippet rule : Text) :
    [c.withCustomCss [] snippet, neighbour [a] rule].foldl mapClass [] = pairMap c a := by
  rcases ha with rfl | rfl <;> rfl

/-- Without content and blocks for breakpoints, the shared stylesheet is all that comes to the
style of a class. -/
theorem get?_stylesOf {r : Resolver} {cs : List GlobalClass} {key : Text} {s : Style}
    (hblocks : blocksOf r cs = [])
    (hs : Table.get? (cs.foldl (addClass r) builtinStyles) key = some s) (m : StyleMap) :
    Table.get? (stylesOf r cs m [] []) key =
      some (finish ((Table.get? (customStyles (cs.flatMap (·.customCss)) m) key).elim s
        (behind (some s)))) := by
  have hsheet : sheetOf r cs [] [] = cs.flatMap (·.customCss) := List.append_nil _
  have helements : (Element.collect r [] []).styles = [] := rfl
  have hgroup : Table.group ([] : List (Text × Text)) = [] := rfl
  rw [stylesOf_eq, hblocks, hsheet, helements, hgroup, List.foldl_nil, List.foldl_nil]
  have hget := get?_map finish ((customStyles (cs.flatMap (·.customCss)) m).foldl mergeStyle
    (cs.foldl (addClass r) builtinStyles)) key
  rw [get?_foldl_mergeStyle (nodup_keys_customStyles _ _), hs] at hget
  refine hget.trans ?_
  cases Table.get? (customStyles (cs.flatMap (·.customCss)) m) key <;> rfl

theorem get?_convert_pair (hc : c.Converts) (ha : a = 'b' ∨ a = 'c')
    (hr : rule ∈ Snippet.rulesFor [a]) (snippet : Text) :
    Table.get? (everything.convert [c.withCustomCss [] snippet, neighbour [a] rule] []).1.styles
        (Style.classId ['.', a]) =
      some (finish ((Table.get? (customStyles ((c.withCustomCss [] snippet).customCss ++
        CustomCss.apart rule) (pairMap c a)) (Style.classId ['.', a])).elim (bareStyle a)
          (behind (some (bareStyle a))))) := by
  have hmigrates : everything.migrates [] (c.withCustomCss [] snippet) = true := by
    rw [migrates_withCustomCss]
    simp [migrates, takesPart, everything, hc.named, hc.candidate]
  have hfilter : [c.withCustomCss [] snippet, neighbour [a] rule].filter (everything.migrates []) =
      [c.withCustomCss [] snippet, neighbour [a] rule] := by
    rw [List.filter_cons_of_pos hmigrates, List.filter_cons_of_pos (migrates_neighbour ha hr)]
    rfl
  have hblocks : blocksOf firstResolver [c.withCustomCss [] snippet, neighbour [a] rule] = [] := by
    rw [blocksOf, List.flatMap_cons, GlobalClass.breakpointBlocks_withCustomCss]
    rfl
  have hsheet : [c.withCustomCss [] snippet, neighbour [a] rule].flatMap (·.customCss) =
      (c.withCustomCss [] snippet).customCss ++ CustomCss.apart rule := by
    rw [List.flatMap_cons, List.flatMap_cons, customCss_neighbour ha hr]
    simp
  have hbare : Table.get? ([c.withCustomCss [] snippet, neighbour [a] rule].foldl
      (addClass firstResolver) builtinStyles) (Style.classId ['.', a]) = some (bareStyle a) := by
    have hselector : (neighbour [a] rule).selector = ['.', a] := by
      rcases ha with rfl | rfl <;> rfl
    rw [List.foldl_cons, List.foldl_cons, List.foldl_nil, addClass, css_neighbour ha hr, hselector]
    exact get?_set_self _ _ _
  have hget := get?_stylesOf hblocks hbare (pairMap c a)
  rw [hsheet] at hget
  rw [convert_styles, hfilter, foldl_mapClass_pair ha]
  exact hget

section Pair

variable {name : Text} {r : StyleRef}

theorem mem_values_pairMap (h : r ∈ (pairMap c a).values) :
    r = ⟨Style.classId ['.', a], ['.', a]⟩ ∨ r = ⟨Style.classId c.selector, c.selector⟩ := by
  rcases mem_values_set h with h | h
  · exact Or.inl h
  · exact Or.inr ((mem_values_mapClass h).resolve_right List.not_mem_nil)

theorem regular_pairMap (c : GlobalClass) (a : Char) : (pairMap c a).Regular := by
  intro r hr
  rcases mem_values_pairMap hr with rfl | rfl
  · exact ⟨[a], rfl⟩
  · exact ⟨c.targetName, rfl⟩

variable (hne : Style.classId ['.', a] ≠ Style.classId c.selector)

include hne

theorem eq_of_forClass?_pairMap (h : (pairMap c a).forClass? name = some r)
    (hr : r.id = Style.classId ['.', a]) : name = [a] := by
  rcases mem_values_pairMap (List.mem_of_find?_eq_some h) with rfl | rfl
  · have hname := List.find?_some h
    exact (of_decide_eq_true hname).symm
  · exact absurd hr.symm hne

theorem forClass?_pairMap :
    (pairMap c a).forClass? [a] = some ⟨Style.classId ['.', a], ['.', a]⟩ := by
  have hmem : (⟨Style.classId ['.', a], ['.', a]⟩ : StyleRef) ∈ (pairMap c a).values :=
    List.mem_map_of_mem (mem_of_get? (get?_set_self _ _ _))
  cases h : (pairMap c a).forClass? [a] with
  | none => exact absurd rfl (of_decide_eq_false (Bool.eq_false_iff.mpr
      (List.find?_eq_none.mp h _ hmem)))
  | some r =>
    have hid := (regular_pairMap c a).id_eq h
    rcases mem_values_pairMap (List.mem_of_find?_eq_some h) with rfl | rfl
    · rfl
    · exact absurd hid.symm hne

end Pair

theorem css?_convert_alone (hc : c.Converts) (ha : a = 'b' ∨ a = 'c')
    (hr : rule ∈ Snippet.rulesFor [a])
    (hne : Style.classId ['.', a] ≠ Style.classId c.selector) :
    (everything.convert [c.withCustomCss [] [], neighbour [a] rule] []).1.styles.css?
      (Style.classId ['.', a]) ≠ some [] := by
  have hall : (['b', 'c'].all fun a => (Snippet.rulesFor [a]).all fun rule =>
      !(finish ((Table.get? (customStyles (CustomCss.apart rule) (loneMap a))
        (Style.classId ['.', a])).elim (bareStyle a) (behind (some (bareStyle a))))).css.isEmpty) =
          true := by
    decide +kernel
  have hstyles : customStyles (CustomCss.apart rule) (pairMap c a) =
      customStyles (CustomCss.apart rule) (loneMap a) := by
    refine customStyles_congr fun name hname => ?_
    rw [(selectorNames_neighbour ha hr).1, List.mem_singleton] at hname
    rw [hname, forClass?_pairMap hne]
    simp [StyleMap.forClass?, loneMap, Table.values, dropStart?]
  have hcss := List.all_eq_true.mp (List.all_eq_true.mp hall a (by simpa using ha)) rule hr
  rw [StyleSet.css?, get?_convert_pair hc ha hr, GlobalClass.customCss_withCustomCss_nil,
    List.nil_append, hstyles, Option.map_some]
  intro h
  rw [Option.some.inj h] at hcss
  exact Bool.false_ne_true hcss

theorem css?_convert_lost (hc : c.Converts) (ha : a = 'b' ∨ a = 'c')
    (hr : rule ∈ Snippet.rulesFor [a])
    (hne : Style.classId ['.', a] ≠ Style.classId c.selector) {k : Token} (hk : k.text = ['.', a])
    (hlost : ∀ s ∈ Node.selectorsOfAll (Node.ofText (c.sheetPart snippet ++ CustomCss.apart rule)),
      ¬ k.Mentioned s) :
    (everything.convert [c.withCustomCss [] snippet, neighbour [a] rule] []).1.styles.css?
      (Style.classId ['.', a]) = some [] := by
  have hid : ∀ name, Style.elementId name ≠ Style.classId ['.', a] := by
    have hhead : (Style.classId ['.', a]).head? ≠ some 'i' := by
      rcases ha with rfl | rfl <;> decide +kernel
    intro name hname
    rw [← hname] at hhead
    exact hhead rfl
  have htidied : CustomCss.tidied ((c.withCustomCss [] snippet).customCss ++ CustomCss.apart rule) =
      c.sheetPart snippet ++ CustomCss.apart rule := by
    rw [CustomCss.tidied_append (GlobalClass.wholeLines_customCss _), tidied_apart ha hr]
    rfl
  have hnone : Table.get? (customStyles ((c.withCustomCss [] snippet).customCss ++
      CustomCss.apart rule) (pairMap c a)) (Style.classId ['.', a]) = none := by
    refine get?_customStyles_eq_none hid fun name r hname hr => ?_
    rw [eq_of_forClass?_pairMap hne hname hr, htidied, ← hk]
    exact nestedCss_eq_nil hlost
  rw [StyleSet.css?, get?_convert_pair hc ha hr, hnone]
  rcases ha with rfl | rfl <;> rfl

/-- A class is a neighbour of every other. -/
theorem exists_neighbour (c : GlobalClass) : ∃ k : Token, ∃ a : Char, (a = 'b' ∨ a = 'c') ∧
    k.text = ['.', a] ∧ Style.classId ['.', a] ≠ Style.classId c.selector := by
  by_cases hb : Style.classId ".b" = Style.classId c.selector
  · refine ⟨⟨'.', ['c'], Or.inl rfl, List.cons_ne_nil _ _, by decide⟩, 'c', Or.inr rfl, rfl, ?_⟩
    rw [← hb]
    decide +kernel
  · exact ⟨⟨'.', ['b'], Or.inl rfl, List.cons_ne_nil _ _, by decide⟩, 'b', Or.inl rfl, rfl, hb⟩

/-- Custom CSS that is not closed takes the CSS of some class behind it. -/
theorem exists_css?_lost (hc : c.Converts)
    (hown : Snippet.KeepsTo c.selector (c.sheetPart snippet))
    (h : ¬ Snippet.Closed (c.sheetPart snippet)) :
    ∃ other : GlobalClass, ∃ key, key ≠ Style.classId c.selector ∧
      (everything.convert [c.withCustomCss [] snippet, other] []).1.styles.css? key ≠
        (everything.convert [c.withCustomCss [] [], other] []).1.styles.css? key := by
  obtain ⟨k, a, ha, hk, hkey⟩ := exists_neighbour c
  have hne : k.text ≠ c.selector := by
    rintro he
    rw [← hk, he] at hkey
    exact hkey rfl
  obtain ⟨rule, hr, hlost⟩ := Snippet.exists_rule_lost ha hk hown hne h
  refine ⟨neighbour [a] rule, Style.classId ['.', a], hkey, ?_⟩
  rw [css?_convert_lost hc ha hr hkey hk hlost]
  exact (css?_convert_alone hc ha hr hkey).symm

theorem closed_sheetPart_nil (c : GlobalClass) : Snippet.Closed (c.sheetPart []) := by
  rw [GlobalClass.sheetPart, GlobalClass.customCss_withCustomCss_nil]
  exact (Snippet.complete_of_blank Blank.nil (fun _ => false) fun _ => rfl).toClosed

theorem keepsTo_sheetPart_nil (c : GlobalClass) : Snippet.KeepsTo c.selector (c.sheetPart []) := by
  rw [GlobalClass.sheetPart, GlobalClass.customCss_withCustomCss_nil]
  exact ⟨fun s hs => absurd hs List.not_mem_nil, fun _ k hk => absurd hk k.not_mentioned_nil⟩

/-- The custom CSS of a class changes no other style exactly if it is closed. -/
theorem isolated_iff (hc : c.Converts) (hown : Snippet.KeepsTo c.selector (c.sheetPart snippet)) :
    c.Isolated snippet ↔ Snippet.Closed (c.sheetPart snippet) := by
  constructor
  · intro h
    by_contra hopen
    obtain ⟨other, key, hkey, hlost⟩ := exists_css?_lost hc hown hopen
    exact hlost (h everything [] [] [other] [] [] (fun b hb => absurd hb List.not_mem_nil)
      (closed_sheetPart_nil c) (keepsTo_sheetPart_nil c) key hkey)
  · intro hclosed s settings before after items snippet' hbefore hclosed' hown' key hkey
    have hleft := sameExcept_convert hbefore hclosed hown.nodes s settings after items key hkey
    have hright := sameExcept_convert hbefore hclosed' hown'.nodes s settings after items key hkey
    rw [StyleSet.css?, StyleSet.css?, hleft, hright]

def card : GlobalClass :=
  ⟨[], "card", [], []⟩

theorem keepsTo_card {t : Text}
    (hnodes : Node.ofText t = [.block ".card" [.declaration "color:red"]])
    (htext : (({} : Draft).read (Lexeme.scan t)).text = []) : Snippet.KeepsTo card.selector t := by
  constructor
  · intro s hs k hk
    rw [hnodes] at hs
    obtain rfl := List.mem_singleton.mp hs
    have hown : k.Mentioned (Token.text ⟨'.', "card", Or.inl rfl, by decide, by decide⟩) := hk
    exact hown.text_eq
  · intro _ k hk
    rw [htext] at hk
    exact absurd hk k.not_mentioned_nil

/-- A comment left open behind the rule of a class makes the difference. -/
theorem isolated_card : card.Isolated ".card\x7bcolor:red\x7d" ∧
    ¬ card.Isolated ".card\x7bcolor:red\x7d/*" := by
  have hcard : card.Converts := ⟨by decide +kernel, by decide +kernel⟩
  constructor
  · exact (isolated_iff hcard (keepsTo_card rfl rfl)).mpr (by decide +kernel)
  · exact mt (isolated_iff hcard (keepsTo_card rfl rfl)).mp (by decide +kernel)

/-- The comment takes the rule of the next class. -/
theorem box_lost :
    let box := neighbour "box" ".box\x7bcolor:blue\x7d"
    let run := fun snippet =>
      (everything.convert [card.withCustomCss [] snippet, box] []).1.styles.css?
        (Style.classId ".box")
    run ".card\x7bcolor:red\x7d" = some "color: blue;" ∧
      run ".card\x7bcolor:red\x7d/*" = some [] := by
  decide +kernel

end Session

end Restyle
