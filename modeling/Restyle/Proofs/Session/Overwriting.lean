import Restyle.Proofs.Conversion.Frame
import Restyle.Proofs.Session.Conversion
import Restyle.Proofs.Text.Cut

/-! # Whose CSS a style keeps

The style of a class is set anew by every class with the same id of its style,
and what an id or a name is mapped to is set anew by every class that goes by
it. So where nothing else adds to the styles, a class keeps its CSS exactly if
the CSS of the last of these classes has it.
-/

namespace Restyle

open Text Table

namespace Settings

variable {s : Settings} {key : Text}

/-- Settings that refer to classes and hold nothing else. -/
def OnlyReferences (s : Settings) : Prop :=
  ∀ e ∈ s, e.1 = Reference.globalKey ∨ e.1 = Reference.namesKey

/-- No custom CSS among the settings, be it for all sizes or for a breakpoint. -/
def NoCustomCss (s : Settings) : Prop :=
  ∀ e ∈ s, e.1 ≠ CustomCss.key ∧ ¬ Resolver.customCssMark <+: e.1

instance : Decidable s.NoCustomCss :=
  inferInstanceAs (Decidable (∀ e ∈ s, _))

namespace OnlyReferences

theorem get?_eq_none (h : s.OnlyReferences) (hk : key ≠ Reference.globalKey)
    (hk' : key ≠ Reference.namesKey) : Table.get? s key = none := by
  apply Table.get?_eq_none
  intro hmem
  obtain ⟨e, he, rfl⟩ := List.mem_map.mp hmem
  rcases h e he with h | h
  · exact hk h
  · exact hk' h

theorem ne_colon (h : s.OnlyReferences) : ∀ e ∈ s, ∀ c ∈ e.1, (c == ':') = false := by
  intro e he c hc
  have hkeys : ∀ key ∈ [Reference.globalKey, Reference.namesKey],
      (key.all fun c => !(c == ':')) = true := by decide
  have hall := hkeys e.1 (List.mem_pair.mpr (h e he))
  simpa using List.all_eq_true.mp hall c hc

theorem filterMap_eq_nil {β : Type} {f : Text × Setting → Option β} (h : s.OnlyReferences)
    (hf : ∀ e : Text × Setting, (∀ c ∈ e.1, (c == ':') = false) → f e = none) :
    s.filterMap f = [] :=
  List.filterMap_eq_nil_iff.mpr fun e he => hf e (h.ne_colon e he)

theorem declarations_eq_nil (h : s.OnlyReferences) : Conversion.declarations s = [] := by
  have hsame : s.SameDeclared [] := fun key hk => h.get?_eq_none hk.2.1 hk.2.2
  rw [hsame.declarations]
  decide

theorem css_eq_nil (h : s.OnlyReferences) (r : Resolver) (className : Option Text) :
    Conversion.css r s className = [] := by
  have hvariants : Conversion.variants r s = [] := by
    refine congrArg Conversion.bucket (h.filterMap_eq_nil fun e he => ?_)
    simp [Conversion.variantKey?, cut?_eq_none he]
  rw [Conversion.css, Conversion.variantCss, hvariants, h.declarations_eq_nil]
  rfl

theorem responsiveCss_eq_nil (h : s.OnlyReferences) (r : Resolver) (className : Option Text) :
    Conversion.responsiveCss r s className = [] := by
  have hbuckets : Conversion.buckets r s = [] := by
    refine congrArg Conversion.bucket (h.filterMap_eq_nil fun e he => ?_)
    simp [cutLast?_eq_none he]
  unfold Conversion.responsiveCss
  rw [hbuckets]
  apply List.flatMap_eq_nil_iff.mpr
  intro e _
  rfl

end OnlyReferences

end Settings

namespace Element

variable {items : List Item}

theorem collect_eq (h : ∀ i ∈ items, ∀ e ∈ i.elements, e.settings.OnlyReferences) (r : Resolver)
    (postTypes : List Text) : collect r items postTypes = ⟨[], []⟩ := by
  have hmem : ∀ e ∈ ((PostType.select items postTypes).flatMap (·.elements)).filter
      (!·.settings.isEmpty), e.settings.OnlyReferences := by
    intro e he
    obtain ⟨i, hi, he⟩ := List.mem_flatMap.mp (List.mem_filter.mp he).1
    exact h i (List.mem_filter.mp hi).1 e he
  have hcss : ∀ e : Element, e.settings.OnlyReferences → settingsCss r e.settings = [] := by
    intro e he
    unfold settingsCss
    rw [he.css_eq_nil, he.responsiveCss_eq_nil]
    rfl
  have hcustom : ∀ e : Element, e.settings.OnlyReferences → customCss r e = [] := by
    intro e he
    have htext : e.settings.text? CustomCss.key = none := by
      rw [Settings.text?, he.get?_eq_none (by decide) (by decide)]
      rfl
    have hsnippets : e.settings.filterMap (breakpointSnippet r (rootSelector e.id)) = [] := by
      apply List.filterMap_eq_nil_iff.mpr
      rintro ⟨key, value⟩ hp
      have hmark : dropStart? key Resolver.customCssMark = none := by
        rcases he _ hp with h | h
        · obtain rfl : key = Reference.globalKey := h
          decide
        · obtain rfl : key = Reference.namesKey := h
          decide
      cases value with
      | scalar snippet => simp [breakpointSnippet, hmark]
      | _ => rfl
    unfold customCss
    dsimp only
    rw [htext, hsnippets]
    rfl
  have hstyles : (((PostType.select items postTypes).flatMap (·.elements)).filter
      (!·.settings.isEmpty)).foldl (addSettings r) [] = [] := by
    refine List.foldlRecOn (motive := (· = [])) _ _ rfl fun styles hs e he => ?_
    rw [addSettings, hcss e (hmem e he), hs]
    simp
  have hsnippets : (((PostType.select items postTypes).flatMap (·.elements)).filter
      (!·.settings.isEmpty)).flatMap (customCss r) = [] :=
    List.flatMap_eq_nil_iff.mpr fun e he => hcustom e (hmem e he)
  unfold collect
  dsimp only
  rw [hstyles, hsnippets]

end Element

namespace GlobalClass

variable {c : GlobalClass}

theorem customCss_eq_nil (h : c.settings.NoCustomCss) : c.customCss = [] := by
  have hnone : Table.get? c.settings CustomCss.key = none := by
    apply Table.get?_eq_none
    intro hmem
    obtain ⟨e, he, hkey⟩ := List.mem_map.mp hmem
    exact (h e he).1 hkey
  rw [customCss, Settings.text?, hnone]
  rfl

theorem breakpointBlocks_eq_nil (h : c.settings.NoCustomCss) (r : Resolver) :
    c.breakpointBlocks r = [] := by
  apply List.filterMap_eq_nil_iff.mpr
  intro e he
  have hmark : dropStart? e.1 Resolver.customCssMark = none := by
    rw [dropStart?_eq_none]
    intro rest hrest
    exact (h e he).2 ⟨rest, hrest.symm⟩
  simp [breakpointBlock?, hmark]

def mapKeys (c : GlobalClass) : List Text :=
  [c.id.trim, c.name.trim].filter (!·.isEmpty)

end GlobalClass

namespace Session

variable {s : Session} {classes cs : List GlobalClass} {items : List Item} {c : GlobalClass}

def lastMapped? (cs : List GlobalClass) (key : Text) : Option GlobalClass :=
  (cs.filter (·.mapKeys.contains key)).getLast?

def lastStyled? (cs : List GlobalClass) (id : Text) : Option GlobalClass :=
  (cs.filter fun c => Style.classId c.selector = id).getLast?

/-- The class whose CSS stands in the style that a class is mapped to. -/
def heir? (cs : List GlobalClass) (c : GlobalClass) : Option GlobalClass :=
  (lastMapped? cs c.key).bind fun d => lastStyled? cs (Style.classId d.selector)

theorem get?_mapClass (m : StyleMap) (c : GlobalClass) (key : Text) :
    Table.get? (mapClass m c) key =
      if key ∈ c.mapKeys then some ⟨Style.classId c.selector, c.selector⟩ else Table.get? m key := by
  have hset : ∀ (keys : List Text) (ref : StyleRef) (m : StyleMap),
      Table.get? (setAll (keys.map (·, ref)) m) key =
        if key ∈ keys then some ref else Table.get? m key := by
    intro keys ref
    induction keys with
    | nil => exact fun m => rfl
    | cons k keys ih =>
      intro m
      have hstep : setAll ((k :: keys).map (·, ref)) m =
          setAll (keys.map (·, ref)) (m.set k ref) := rfl
      rw [hstep, ih, get?_set]
      by_cases hmem : key ∈ keys
      · simp [hmem]
      · by_cases hk : key = k <;> simp [hmem, hk]
  exact hset _ _ m

theorem get?_foldl_mapClass (cs : List GlobalClass) (key : Text) :
    Table.get? (cs.foldl mapClass []) key =
      (lastMapped? cs key).map fun d => ⟨Style.classId d.selector, d.selector⟩ := by
  induction cs using List.reverseRecOn with
  | nil => rfl
  | append_singleton cs c ih =>
    rw [List.foldl_append, List.foldl_cons, List.foldl_nil, get?_mapClass, ih, lastMapped?,
      lastMapped?, List.filter_append]
    by_cases hk : key ∈ c.mapKeys <;> simp [hk]

theorem get?_foldl_addClass (r : Resolver) (cs : List GlobalClass) (styles : StyleSet) (id : Text) :
    Table.get? (cs.foldl (addClass r) styles) id =
      ((lastStyled? cs id).map fun e => Style.ofSelector (Style.classId e.selector) e.selector
        (e.css r)).or (Table.get? styles id) := by
  have hfold : cs.foldl (addClass r) styles = cs.foldl (fun styles c =>
      Table.set (Style.classId c.selector)
        (Style.ofSelector (Style.classId c.selector) c.selector (c.css r)) styles) styles := rfl
  have hget := get?_foldl_set (fun c : GlobalClass => Style.classId c.selector)
    (fun c => Style.ofSelector (Style.classId c.selector) c.selector (c.css r)) cs styles id
  rw [hfold]
  exact hget

/-- Without custom CSS and styles of elements the classes are all that makes styles. -/
theorem stylesOf_plain (hcs : ∀ c ∈ cs, c.settings.NoCustomCss)
    (hitems : ∀ i ∈ items, ∀ e ∈ i.elements, e.settings.OnlyReferences) (r : Resolver)
    (m : StyleMap) (postTypes : List Text) : stylesOf r cs m items postTypes =
      (cs.foldl (addClass r) builtinStyles).map fun (key, s) => (key, finish s) := by
  have hcustom : cs.flatMap (·.customCss) = [] :=
    List.flatMap_eq_nil_iff.mpr fun c hc => GlobalClass.customCss_eq_nil (hcs c hc)
  have hblocks : blocksOf r cs = [] := by
    apply List.flatMap_eq_nil_iff.mpr
    intro c hc
    rw [GlobalClass.breakpointBlocks_eq_nil (hcs c hc)]
    rfl
  rw [stylesOf_eq, hblocks, sheetOf, hcustom, Element.collect_eq hitems]
  rfl

theorem css_finish (id selector css : Text) :
    (finish (Style.ofSelector id selector css)).css = Declaration.finalCss (trim css) := by
  unfold finish
  split_ifs with h
  · have hnil : trim css = [] := List.isEmpty_iff.mp h
    have hcss : (Style.ofSelector id selector css).css = trim css := rfl
    rw [hcss, hnil]
    decide
  · rfl

/-- The style that a class is mapped to has the CSS of the class. -/
def KeepsCss (s : Session) (classes : List GlobalClass) (items : List Item) (c : GlobalClass) :
    Prop :=
  ∃ ref style, Table.get? (s.convert classes items).1.styleMap c.key = some ref ∧
    Table.get? (s.convert classes items).1.styles ref.id = some style ∧
    style.css.contains (Declaration.finalCss (c.css s.asked)) = true

theorem key_mem_mapKeys (h : (c.id.trim.isEmpty && c.name.trim.isEmpty) = false) :
    c.key ∈ c.mapKeys := by
  unfold GlobalClass.key GlobalClass.mapKeys
  cases hid : c.id.trim.isEmpty with
  | true =>
    rw [hid, Bool.true_and] at h
    simp [h]
  | false => simp [hid]

theorem exists_lastMapped? {key : Text} (hc : c ∈ cs) (hk : key ∈ c.mapKeys) :
    ∃ d ∈ cs, lastMapped? cs key = some d := by
  have hne : cs.filter (·.mapKeys.contains key) ≠ [] :=
    List.ne_nil_of_mem (List.mem_filter.mpr ⟨hc, by simpa using hk⟩)
  refine ⟨_, ?_, List.getLast?_eq_some_getLast hne⟩
  exact (List.mem_filter.mp (List.getLast_mem hne)).1

theorem exists_lastStyled? (hc : c ∈ cs) :
    ∃ d, lastStyled? cs (Style.classId c.selector) = some d := by
  have hne : cs.filter (fun d => Style.classId d.selector = Style.classId c.selector) ≠ [] :=
    List.ne_nil_of_mem (List.mem_filter.mpr ⟨hc, by simp⟩)
  exact ⟨_, List.getLast?_eq_some_getLast hne⟩

/-- What stands under the id of a style is what the last class with that id makes of it. -/
theorem exists_get?_convert (hclasses : ∀ c ∈ classes, c.settings.NoCustomCss)
    (hitems : ∀ i ∈ items, ∀ e ∈ i.elements, e.settings.OnlyReferences) {id : Text}
    {e : GlobalClass} (he : lastStyled? (s.converted classes items) id = some e) :
    ∃ style, Table.get? (s.convert classes items).1.styles id = some style ∧
      style.css = Declaration.finalCss (e.css s.asked) := by
  have hcs : ∀ c ∈ s.converted classes items, c.settings.NoCustomCss :=
    fun c hc => hclasses c (List.mem_filter.mp hc).1
  have hplain := stylesOf_plain hcs hitems s.asked
    ((s.converted classes items).foldl mapClass []) s.options.postTypes
  refine ⟨finish (Style.ofSelector (Style.classId e.selector) e.selector (e.css s.asked)), ?_, ?_⟩
  · rw [convert_styles]
    refine (congrArg (Table.get? · id) hplain).trans ?_
    rw [get?_map, get?_foldl_addClass, he, Option.map_some, Option.some_or, Option.map_some]
  · rw [css_finish, GlobalClass.css, (trimmed_trim _).trim_eq]

/-- A converted class keeps its CSS exactly if the class whose CSS its style has in the end has it
too. -/
theorem keepsCss_iff (hclasses : ∀ c ∈ classes, c.settings.NoCustomCss)
    (hitems : ∀ i ∈ items, ∀ e ∈ i.elements, e.settings.OnlyReferences)
    (hc : c ∈ s.converted classes items) : s.KeepsCss classes items c ↔
      ∃ e ∈ heir? (s.converted classes items) c, (Declaration.finalCss (e.css s.asked)).contains
        (Declaration.finalCss (c.css s.asked)) = true := by
  have hnamed : (c.id.trim.isEmpty && c.name.trim.isEmpty) = false := by
    have hmigrates := (List.mem_filter.mp hc).2
    simp only [migrates, takesPart, Bool.and_eq_true, Bool.not_eq_true'] at hmigrates
    exact hmigrates.1.1
  obtain ⟨d, hd, hmapped⟩ := exists_lastMapped? hc (key_mem_mapKeys hnamed)
  obtain ⟨e, hstyled⟩ := exists_lastStyled? hd
  have hheir : heir? (s.converted classes items) c = some e := by
    rw [heir?, hmapped, Option.bind_some, hstyled]
  have href : Table.get? (s.convert classes items).1.styleMap c.key =
      some ⟨Style.classId d.selector, d.selector⟩ := by
    rw [convert_styleMap, get?_foldl_mapClass, hmapped, Option.map_some]
  obtain ⟨style, hstyle, hcss⟩ := exists_get?_convert hclasses hitems hstyled
  unfold KeepsCss
  rw [hheir, href]
  constructor
  · rintro ⟨ref, style', hget, hget', hcontains⟩
    obtain rfl := Option.some.inj hget
    dsimp only at hget'
    rw [hstyle] at hget'
    obtain rfl := Option.some.inj hget'
    rw [hcss] at hcontains
    exact ⟨e, rfl, hcontains⟩
  · rintro ⟨e', heir, hcontains⟩
    obtain rfl := Option.some.inj heir
    rw [← hcss] at hcontains
    exact ⟨_, style, rfl, hstyle, hcontains⟩

def faded : GlobalClass :=
  ⟨"a1", "card", [], [("_opacity", .scalar "0.5")]⟩

def raised : GlobalClass :=
  ⟨"b2", "card", [], [("_zIndex", .scalar "2")]⟩

/-- Of two classes of one name the last keeps its CSS and the first does not. -/
theorem keepsCss_raised : everything.KeepsCss [faded, raised] [] raised ∧
    ¬ everything.KeepsCss [faded, raised] [] faded := by
  have hclasses : ∀ c ∈ [faded, raised], c.settings.NoCustomCss := by
    simp only [List.forall_mem_cons, List.not_mem_nil, false_implies, implies_true, and_true]
    decide +kernel
  have hitems : ∀ i ∈ ([] : List Item), ∀ e ∈ i.elements, e.settings.OnlyReferences := by
    simp
  have hraised : raised ∈ everything.converted [faded, raised] [] :=
    List.mem_filter.mpr ⟨by simp, by decide +kernel⟩
  have hfaded : faded ∈ everything.converted [faded, raised] [] :=
    List.mem_filter.mpr ⟨by simp, by decide +kernel⟩
  constructor
  · exact (keepsCss_iff hclasses hitems hraised).mpr (by decide +kernel)
  · exact mt (keepsCss_iff hclasses hitems hfaded).mp (by decide +kernel)

/-- Both classes are converted, but their style has the CSS of the second only. -/
theorem converted_css_lost :
    let output := (everything.convert [faded, raised] []).1
    output.converted = 2 ∧
      Table.get? output.styleMap faded.key = some ⟨Style.classId ".card", ".card"⟩ ∧
      (Table.get? output.styles (Style.classId ".card")).map (·.css) = some "z-index: 2;" ∧
      Declaration.finalCss (faded.css everything.asked) = "opacity: 0.5;" := by
  decide +kernel

end Session

end Restyle
