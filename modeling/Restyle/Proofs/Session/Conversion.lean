import Restyle.Proofs.Session.CustomStyles

/-! # Styles of a conversion

The styles of a conversion are those of the classes that take part in it and are
neither utilities nor excluded. The custom stylesheet of one class may change
without changing any other style, if it stays closed and to itself.
-/

namespace Restyle

open Text Table

namespace GlobalClass

def withCustomCss (c : GlobalClass) (settings : Settings) (snippet : Text) : GlobalClass :=
  { c with settings := Table.set CustomCss.key (.scalar snippet) settings }

/-- The part of a class with a custom stylesheet in the shared one, as it is read. -/
def sheetPart (c : GlobalClass) (snippet : Text) : Text :=
  CustomCss.tidied (c.withCustomCss [] snippet).customCss

variable {c : GlobalClass}

theorem customCss_withCustomCss (c : GlobalClass) (settings : Settings) (snippet : Text) :
    (c.withCustomCss settings snippet).customCss = (c.withCustomCss [] snippet).customCss := by
  have htext : ∀ settings, Settings.text? (c.withCustomCss settings snippet).settings CustomCss.key =
      (Setting.scalar snippet).text? := by
    intro settings
    rw [Settings.text?, withCustomCss, get?_set_self]
    rfl
  rw [customCss, customCss, htext, htext]
  rfl

theorem customCss_withCustomCss_nil (c : GlobalClass) (settings : Settings) :
    (c.withCustomCss settings []).customCss = [] := by
  rw [customCss_withCustomCss]
  rfl

theorem wholeLines_customCss (c : GlobalClass) : CustomCss.WholeLines c.customCss := by
  rw [customCss]
  cases c.settings.text? CustomCss.key with
  | none => exact Or.inl rfl
  | some snippet => exact CustomCss.wholeLines_apart _

theorem breakpointBlocks_withCustomCss (r : Resolver) (c : GlobalClass) (settings : Settings)
    (snippet : Text) : (c.withCustomCss settings snippet).breakpointBlocks r =
      settings.filterMap (c.breakpointBlock? r) :=
  filterMap_set (fun _ => rfl) settings _

end GlobalClass

namespace Session

def everything : Session :=
  { options := { restrict := false } }

def isCandidate (c : GlobalClass) : Bool :=
  !Utility.isUtility c && !Exclusion.excludes c

/-- Whether a class becomes a style in a conversion with some content. -/
def migrates (s : Session) (items : List Item) (c : GlobalClass) : Bool :=
  let (index, scanner) := ({} : Scanner).scan items s.options.postTypes
  ({ s with scanner } : Session).takesPart index c && isCandidate c

theorem candidates_foldl_add (cs : List GlobalClass) (sorting : Sorting) :
    (cs.foldl Sorting.add sorting).candidates =
      (cs.filter isCandidate).reverse ++ sorting.candidates := by
  induction cs generalizing sorting with
  | nil => rfl
  | cons c cs ih =>
    rw [List.foldl_cons, ih, Sorting.add]
    by_cases hu : Utility.isUtility c = true
    · rw [if_pos hu, List.filter_cons_of_neg (by simp [isCandidate, hu])]
    · by_cases he : Exclusion.excludes c = true
      · rw [if_neg hu, if_pos he, List.filter_cons_of_neg (by simp [isCandidate, he])]
      · rw [if_neg hu, if_neg he, List.filter_cons_of_pos (by simp [isCandidate, hu, he])]
        simp

theorem candidates_sort (s : Session) (index : List Text) (cs : List GlobalClass) :
    (s.sort index cs).candidates.reverse =
      cs.filter fun c => s.takesPart index c && isCandidate c := by
  rw [sort, candidates_foldl_add, List.append_nil, List.reverse_reverse, List.filter_filter]
  exact List.filter_congr fun c _ => Bool.and_comm _ _

theorem convert_styles (s : Session) (classes : List GlobalClass) (items : List Item) :
    (s.convert classes items).1.styles =
      stylesOf s.resolver.forget.remember (classes.filter (s.migrates items))
        ((classes.filter (s.migrates items)).foldl mapClass []) items s.options.postTypes := by
  simp only [convert, candidates_sort]
  rfl

/-- The classes of a list that a conversion converts. -/
def converted (s : Session) (classes : List GlobalClass) (items : List Item) : List GlobalClass :=
  classes.filter (s.migrates items)

/-- The resolver that a conversion asks. -/
def asked (s : Session) : Resolver :=
  s.resolver.forget.remember

theorem convert_styleMap (s : Session) (classes : List GlobalClass) (items : List Item) :
    (s.convert classes items).1.styleMap = (s.converted classes items).foldl mapClass [] := by
  simp only [convert, candidates_sort]
  rfl

theorem convert_converted (s : Session) (classes : List GlobalClass) (items : List Item) :
    (s.convert classes items).1.converted = (s.converted classes items).length := by
  simp only [convert, candidates_sort]
  rfl

theorem mem_values_mapClass {m : StyleMap} {c : GlobalClass} {r : StyleRef}
    (h : r ∈ (mapClass m c).values) :
    r = ⟨Style.classId c.selector, c.selector⟩ ∨ r ∈ m.values := by
  have hset : ∀ (keys : List Text) (m : StyleMap),
      r ∈ (setAll (keys.map (·, ⟨Style.classId c.selector, c.selector⟩)) m).values →
        r = ⟨Style.classId c.selector, c.selector⟩ ∨ r ∈ m.values := by
    intro keys
    induction keys with
    | nil => exact fun m h => Or.inr h
    | cons key keys ih =>
      intro m h
      rcases ih _ h with h | h
      · exact Or.inl h
      · exact mem_values_set h
  exact hset _ m h

theorem regular_mapClass {m : StyleMap} (hm : m.Regular) (c : GlobalClass) :
    (mapClass m c).Regular := by
  intro r hr
  rcases mem_values_mapClass hr with rfl | hr
  · exact ⟨c.targetName, rfl⟩
  · exact hm r hr

theorem regular_foldl_mapClass {m : StyleMap} (hm : m.Regular) (cs : List GlobalClass) :
    StyleMap.Regular (cs.foldl mapClass m) := by
  induction cs generalizing m with
  | nil => exact hm
  | cons c cs ih => exact ih (regular_mapClass hm c)

theorem foldl_mapClass_withCustomCss (before after : List GlobalClass) (c : GlobalClass)
    (settings : Settings) (snippet snippet' : Text) (m : StyleMap) :
    (before ++ c.withCustomCss settings snippet :: after).foldl mapClass m =
      (before ++ c.withCustomCss settings snippet' :: after).foldl mapClass m := by
  rw [List.foldl_append, List.foldl_append]
  rfl

theorem migrates_withCustomCss (s : Session) (items : List Item) (c : GlobalClass)
    (settings : Settings) (snippet : Text) :
    s.migrates items (c.withCustomCss settings snippet) = s.migrates items c := rfl

variable {key : Text} {styles styles' : StyleSet}

theorem sameExcept_addClass (hs : SameExcept key styles styles') (r : Resolver) (c : GlobalClass) :
    SameExcept key (addClass r styles c) (addClass r styles' c) :=
  hs.set _ _

theorem sameExcept_addClass_withCustomCss (r : Resolver) (c : GlobalClass) (settings : Settings)
    (snippet snippet' : Text) (hs : SameExcept (Style.classId c.selector) styles styles') :
    SameExcept (Style.classId c.selector) (addClass r styles (c.withCustomCss settings snippet))
      (addClass r styles' (c.withCustomCss settings snippet')) :=
  (hs.set_left _).trans ((SameExcept.refl _ styles').set_left _).symm

def sheetOf (r : Resolver) (cs : List GlobalClass) (items : List Item) (postTypes : List Text) :
    Text :=
  let elements := Element.collect r items postTypes
  cs.flatMap (·.customCss) ++
    if elements.customCss.isEmpty then [] else CustomCss.apart elements.customCss

def blocksOf (r : Resolver) (cs : List GlobalClass) : List (Text × Text) :=
  cs.flatMap fun c => (c.breakpointBlocks r).map (c.key, ·)

theorem blocksOf_withCustomCss (r : Resolver) (before after : List GlobalClass) (c : GlobalClass)
    (settings : Settings) (snippet snippet' : Text) :
    blocksOf r (before ++ c.withCustomCss settings snippet :: after) =
      blocksOf r (before ++ c.withCustomCss settings snippet' :: after) := by
  simp only [blocksOf, List.flatMap_append, List.flatMap_cons,
    GlobalClass.breakpointBlocks_withCustomCss]
  rfl

theorem stylesOf_eq (r : Resolver) (cs : List GlobalClass) (m : StyleMap) (items : List Item)
    (postTypes : List Text) : stylesOf r cs m items postTypes =
      ((Table.group (blocksOf r cs)).foldl (addBlocks m)
        ((customStyles (sheetOf r cs items postTypes) m).foldl mergeStyle
          ((Element.collect r items postTypes).styles.foldl mergeStyle
            (cs.foldl (addClass r) builtinStyles)))).map fun (key, s) => (key, finish s) := rfl

variable {c : GlobalClass} {snippet : Text} {before after : List GlobalClass}

/-- A closed custom stylesheet that mentions its own class only can be taken away. -/
def ownPart (hbefore : Snippet.Complete (CustomCss.tidied (before.flatMap (·.customCss))))
    (hclosed : Snippet.Closed (c.sheetPart snippet))
    (hown : Node.MentionOnly c.selector (Node.ofText (c.sheetPart snippet)))
    (after : List GlobalClass) (r : Resolver) (settings : Settings) (items : List Item)
    (postTypes : List Text) :
    OwnPart c.targetName
      (sheetOf r (before ++ c.withCustomCss settings snippet :: after) items postTypes)
      (sheetOf r (before ++ c.withCustomCss settings [] :: after) items postTypes) where
  before := CustomCss.tidied (before.flatMap (·.customCss))
  own := c.sheetPart snippet
  after := CustomCss.tidied (sheetOf r after items postTypes)
  complete := hbefore
  closed := hclosed
  mentions := hown
  tidied_eq := by
    have hlines := CustomCss.wholeLines_flatMap fun b (_ : b ∈ before) => b.wholeLines_customCss
    rw [sheetOf, List.flatMap_append, List.flatMap_cons, List.append_assoc, List.append_assoc,
      CustomCss.tidied_append hlines, CustomCss.tidied_append (GlobalClass.wholeLines_customCss _),
      GlobalClass.customCss_withCustomCss]
    rfl
  tidied_eq' := by
    have hlines := CustomCss.wholeLines_flatMap fun b (_ : b ∈ before) => b.wholeLines_customCss
    rw [sheetOf, List.flatMap_append, List.flatMap_cons, List.append_assoc, List.append_assoc,
      CustomCss.tidied_append hlines, GlobalClass.customCss_withCustomCss_nil, List.nil_append]
    rfl

theorem sameExcept_stylesOf
    (hbefore : Snippet.Complete (CustomCss.tidied (before.flatMap (·.customCss))))
    (hclosed : Snippet.Closed (c.sheetPart snippet))
    (hown : Node.MentionOnly c.selector (Node.ofText (c.sheetPart snippet)))
    (r : Resolver) (settings : Settings) {m : StyleMap} (hm : m.Regular) (items : List Item)
    (postTypes : List Text) :
    SameExcept (Style.classId c.selector)
      (stylesOf r (before ++ c.withCustomCss settings snippet :: after) m items postTypes)
      (stylesOf r (before ++ c.withCustomCss settings [] :: after) m items postTypes) := by
  have hclasses : SameExcept (Style.classId c.selector)
      ((before ++ c.withCustomCss settings snippet :: after).foldl (addClass r) builtinStyles)
      ((before ++ c.withCustomCss settings [] :: after).foldl (addClass r) builtinStyles) := by
    rw [List.foldl_append, List.foldl_append, List.foldl_cons, List.foldl_cons]
    refine SameExcept.foldl after (fun _ _ c _ hs => sameExcept_addClass hs r c) ?_
    exact sameExcept_addClass_withCustomCss r c settings _ _ (.refl _ _)
  have hcustom := (ownPart hbefore hclosed hown after r settings items
    postTypes).sameExcept_customStyles hm
  have helements := SameExcept.foldl (Element.collect r items postTypes).styles
    (fun _ _ entry _ hs => sameExcept_mergeStyle hs entry) hclasses
  have hmerged := sameExcept_foldl_mergeStyle hcustom (nodup_keys_customStyles _ m)
    (nodup_keys_customStyles _ m) helements
  have hadded := SameExcept.foldl
    (Table.group (blocksOf r (before ++ c.withCustomCss settings [] :: after)))
    (fun _ _ entry _ hs => sameExcept_addBlocks hs m entry) hmerged
  have hfinished := hadded.map finish
  rw [stylesOf_eq, stylesOf_eq, blocksOf_withCustomCss r before after c settings snippet []]
  exact hfinished

end Session

end Restyle
