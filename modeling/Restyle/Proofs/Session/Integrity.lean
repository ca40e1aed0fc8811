import Restyle.Proofs.Session.Conversion
import Restyle.Proofs.Text.Spacing

/-! # Integrity of a conversion

Every stage of a conversion adds to the styles or changes the CSS of one. Under
which id a style stands depends on its selector alone, and no stage touches the
styles of the target's own elements. So if no two classes share an id by chance,
the styles and the map of styles fit together.
-/

namespace Restyle

open Text Table

namespace Style

variable {t selector name : Text} {c : Char} {digits : Nat}

def hexDigits : Text := "0123456789abcdef"

theorem mem_hexDigits_of_digest (h : c ∈ digest t digits) : c ∈ hexDigits := by
  have hdigit : ∀ n < 16, Nat.digitChar n ∈ hexDigits := by decide
  have hbyte : ∀ b : UInt8, ∀ d ∈ Md5.hexByte b, d ∈ hexDigits := by
    intro b d hd
    have hlt : b.toNat < 256 := b.toNat_lt
    rcases List.mem_pair.mp hd with rfl | rfl
    · exact hdigit _ (by omega)
    · exact hdigit _ (by omega)
  have hhex := List.mem_of_mem_take h
  obtain ⟨w, -, hw⟩ := List.mem_flatMap.mp hhex
  obtain ⟨b, -, hb⟩ := List.mem_flatMap.mp hw
  exact hbyte b c hb

theorem elementId_ne_classId (name selector : Text) : elementId name ≠ classId selector := by
  intro h
  have hmem : 'i' ∈ classId selector := h ▸ List.mem_cons_self
  exact absurd (mem_hexDigits_of_digest hmem) (by decide)

/-- The id of a style, as far as its selector is that of a class or of an element id. -/
def idFor? : Text → Option Text
  | '.' :: name => some (classId ('.' :: name))
  | '#' :: name => some (elementId name)
  | _ => none

end Style

namespace Session

variable {cs : List GlobalClass} {styles : StyleSet} {key : Text} {s s' : Style}

/-- No two selectors of classes have one id. -/
def Separate (cs : List GlobalClass) : Prop :=
  ∀ c ∈ cs, ∀ d ∈ cs, Style.classId c.selector = Style.classId d.selector → c.selector = d.selector

instance : Decidable (Separate cs) :=
  inferInstanceAs (Decidable (∀ c ∈ cs, _))

/-- The styles of the target's own elements are marked, and have keys unlike those of classes and
elements. -/
theorem builtin_spec : ∀ e ∈ builtinStyles, e.2.readonly = true ∧ e.2.id = e.1 ∧
    Style.idFor? e.2.selector = none ∧ 't' ∈ e.1 ∧ e.1.head? = some 'e' := by
  decide +kernel

theorem fixGridPlacement_eq_self {css : Text} (h : ¬ ("grid-" : Text) <:+: css.map fold) :
    Declaration.fixGridPlacement css = css := by
  have hnames : ∀ name ∈ (["grid-column", "grid-row"] : List Text),
      ("grid-" : Text) <+: name.map fold := by decide +kernel
  refine substitute_eq_self_of_suffix fun before u hu => ?_
  have hnone : dropAnyWord? ["grid-column", "grid-row"] u = none := by
    refine List.findSome?_eq_none_iff.mpr fun name hname => ?_
    have hword : ¬ name.map fold <:+: css.map fold := fun hin =>
      h ((hnames name hname).isInfix.trans hin)
    rw [dropWord?_eq_none hword hu]
    rfl
  rw [Declaration.gridPlacement, hnone]
  cases Declaration.wordMayStart before <;> rfl

theorem finish_eq_self (hlower : lower s.css = s.css) (hhsl : s.css.contains "-hsl" = false)
    (hgrid : ¬ ("grid-" : Text) <:+: s.css.map fold) : finish s = s := by
  have hfinal : Declaration.finalCss s.css = s.css := by
    rw [Declaration.finalCss, Declaration.replaceHsl, hlower, hhsl]
    exact fixGridPlacement_eq_self hgrid
  rw [finish, hfinal]
  exact ite_self s

/-- The last pass over all styles leaves the styles of the target's own elements alone. -/
theorem finish_builtin : ∀ e ∈ builtinStyles, finish e.2 = e.2 := by
  have hall : ∀ e ∈ builtinStyles, lower e.2.css = e.2.css ∧ e.2.css.contains "-hsl" = false ∧
      Text.contains (e.2.css.map fold) "grid-" = false := by
    decide +kernel
  intro e he
  obtain ⟨hlower, hhsl, hgrid⟩ := hall e he
  refine finish_eq_self hlower hhsl fun hin => ?_
  rw [contains_iff_isInfix.mpr hin] at hgrid
  cases hgrid

/-- A style that a conversion of some classes may put under a key. -/
structure Own (cs : List GlobalClass) (key : Text) (s : Style) : Prop where
  id_eq : s.id = key
  readonly_eq : s.readonly = false
  origin : (∃ c ∈ cs, s.selector = c.selector ∧ key = Style.classId c.selector) ∨
    ∃ name, s.selector = '#' :: name ∧ key = Style.elementId name

namespace Own

theorem withCss (h : Own cs key s) (css : Text) : Own cs key { s with css } :=
  ⟨h.id_eq, h.readonly_eq, h.origin⟩

theorem finish (h : Own cs key s) : Own cs key (finish s) := by
  unfold Session.finish
  split_ifs
  · exact h
  · exact h.withCss _

theorem ofClass {c : GlobalClass} (hc : c ∈ cs) (css : Text) :
    Own cs (Style.classId c.selector) (Style.ofSelector (Style.classId c.selector) c.selector css) :=
  ⟨rfl, rfl, Or.inl ⟨c, hc, rfl, rfl⟩⟩

theorem ofElement (cs : List GlobalClass) (name css : Text) :
    Own cs (Style.elementId name) (Style.ofSelector (Style.elementId name) ('#' :: name) css) :=
  ⟨rfl, rfl, Or.inr ⟨name, rfl, rfl⟩⟩

theorem idFor?_eq (h : Own cs key s) : Style.idFor? s.selector = some key := by
  rcases h.origin with ⟨c, -, hselector, rfl⟩ | ⟨name, hselector, rfl⟩
  · rw [hselector]
    rfl
  · rw [hselector]
    rfl

theorem key_notMem (h : Own cs key s) : key ∉ builtinStyles.keys := by
  intro hmem
  obtain ⟨e, he, hkey⟩ := List.mem_map.mp hmem
  obtain ⟨-, -, -, ht, hhead⟩ := builtin_spec e he
  rcases h.origin with ⟨c, -, -, rfl⟩ | ⟨name, -, rfl⟩
  · rw [hkey] at ht
    exact absurd (Style.mem_hexDigits_of_digest ht) (by decide)
  · rw [hkey] at hhead
    exact absurd hhead (by simp [Style.elementId])

end Own

structure Sound (cs : List GlobalClass) (styles : StyleSet) : Prop where
  nodup_keys : styles.keys.Nodup
  builtin_or_own : ∀ e ∈ styles, e ∈ builtinStyles ∨ Own cs e.1 e.2
  builtin_subset : builtinStyles ⊆ styles

namespace Sound

theorem builtin (cs : List GlobalClass) : Sound cs builtinStyles :=
  ⟨by decide +kernel, fun _ => Or.inl, fun _ => id⟩

theorem set (h : Sound cs styles) (hs : Own cs key s) : Sound cs (styles.set key s) := by
  constructor
  case nodup_keys => exact nodup_keys_set h.nodup_keys key s
  case builtin_or_own =>
    intro e he
    rcases mem_set he with rfl | he
    · exact Or.inr hs
    · exact h.builtin_or_own e he
  case builtin_subset =>
    intro e he
    apply mem_set_of_ne (h.builtin_subset he)
    rintro rfl
    exact hs.key_notMem (List.mem_map_of_mem he)

/-- Under the key of a style that a conversion may add stands one that it may add. -/
theorem own_of_get? (h : Sound cs styles) (hkey : key ∉ builtinStyles.keys)
    (hs : Table.get? styles key = some s) : Own cs key s := by
  rcases h.builtin_or_own _ (mem_of_get? hs) with hmem | hown
  · exact absurd (List.mem_map_of_mem hmem) hkey
  · exact hown

theorem addClass (h : Sound cs styles) (r : Resolver) {c : GlobalClass} (hc : c ∈ cs) :
    Sound cs (addClass r styles c) :=
  h.set (Own.ofClass hc _)

theorem mergeStyle (h : Sound cs styles) {entry : Text × Style} (hentry : Own cs entry.1 entry.2) :
    Sound cs (mergeStyle styles entry) := by
  unfold Session.mergeStyle
  split
  case h_1 => exact h.set hentry
  case h_2 s hs => exact h.set ((h.own_of_get? hentry.key_notMem hs).withCss _)

theorem addBlocks (h : Sound cs styles) {m : StyleMap}
    (hm : ∀ ref ∈ m.values, ∃ c ∈ cs, ref = ⟨Style.classId c.selector, c.selector⟩)
    (entry : Text × List Text) : Sound cs (addBlocks m styles entry) := by
  unfold Session.addBlocks
  split
  case h_1 => exact h
  case h_2 ref href =>
    split
    case h_1 => exact h
    case h_2 s hs =>
      obtain ⟨c, hc, rfl⟩ := hm ref (List.mem_map_of_mem (mem_of_get? href))
      exact h.set ((h.own_of_get? (Own.ofClass hc []).key_notMem hs).withCss _)

theorem finish (h : Sound cs styles) : Sound cs (styles.map fun (key, s) => (key, finish s)) := by
  have hbuiltin : ∀ e ∈ builtinStyles, (e.1, Session.finish e.2) = e := fun e he => by
    rw [finish_builtin e he]
  constructor
  case nodup_keys =>
    rw [keys_map]
    exact h.nodup_keys
  case builtin_or_own =>
    intro e he
    obtain ⟨e, hmem, rfl⟩ := List.mem_map.mp he
    rcases h.builtin_or_own e hmem with hmem | hown
    · have heq : (e.1, Session.finish e.2) = e := hbuiltin e hmem
      apply Or.inl
      show (e.1, Session.finish e.2) ∈ builtinStyles
      rw [heq]
      exact hmem
    · exact Or.inr hown.finish
  case builtin_subset =>
    intro e he
    exact List.mem_map.mpr ⟨e, h.builtin_subset he, hbuiltin e he⟩

end Sound

def AllOwn (cs : List GlobalClass) (styles : StyleSet) : Prop :=
  ∀ e ∈ styles, Own cs e.1 e.2

namespace AllOwn

theorem nil (cs : List GlobalClass) : AllOwn cs [] :=
  fun _ he => absurd he List.not_mem_nil

theorem set (h : AllOwn cs styles) (hs : Own cs key s) : AllOwn cs (styles.set key s) := by
  intro e he
  rcases mem_set he with rfl | he
  · exact hs
  · exact h e he

theorem addSettings (h : AllOwn cs styles) (r : Resolver) (e : Element) :
    AllOwn cs (Element.addSettings r styles e) := by
  unfold Element.addSettings
  dsimp only
  split_ifs
  · exact h
  · unfold Element.addStyle
    dsimp only
    split
    case h_1 s hs => exact h.set ((h _ (mem_of_get? hs)).withCss _)
    case h_2 => exact h.set (Own.ofElement cs _ _)

theorem collect (cs : List GlobalClass) (r : Resolver) (items : List Item) (postTypes : List Text) :
    AllOwn cs (Element.collect r items postTypes).styles :=
  List.foldlRecOn _ _ (nil cs) fun _ h e _ => h.addSettings r e

theorem classStyles {m : StyleMap}
    (hm : ∀ ref ∈ m.values, ∃ c ∈ cs, ref = ⟨Style.classId c.selector, c.selector⟩) (css : Text) :
    AllOwn cs (classStyles css m) := by
  rw [classStyles_eq]
  refine List.foldlRecOn _ _ (nil cs) fun styles h name _ => ?_
  unfold addClassCss
  split
  case h_1 => exact h
  case h_2 ref href =>
    dsimp only
    split_ifs
    · exact h
    · obtain ⟨c, hc, rfl⟩ := hm ref (List.mem_of_find?_eq_some href)
      have hname : c.selector = '.' :: name := by
        have hfound := List.find?_some href
        have hdrop : dropStart? c.selector "." = some c.targetName :=
          dropStart?_append ['.'] c.targetName
        rw [decide_eq_true_eq, hdrop] at hfound
        rw [← hfound]
        rfl
      rw [← hname]
      exact h.set (Own.ofClass hc _)

theorem idStyles (cs : List GlobalClass) (css : Text) : AllOwn cs (idStyles css) := by
  rw [idStyles_eq]
  refine List.foldlRecOn _ _ (nil cs) fun styles h name _ => ?_
  unfold addIdCss
  dsimp only
  split_ifs
  · exact h
  · exact h.set (Own.ofElement cs name _)

theorem customStyles {m : StyleMap}
    (hm : ∀ ref ∈ m.values, ∃ c ∈ cs, ref = ⟨Style.classId c.selector, c.selector⟩) (css : Text) :
    AllOwn cs (customStyles css m) := by
  have hall : AllOwn cs (setAll (Restyle.idStyles (Declaration.tidyCustomCss css))
      (Restyle.classStyles (Declaration.tidyCustomCss css) m)) :=
    List.foldlRecOn _ _ (classStyles hm _) fun _ h e he => h.set (idStyles cs _ e he)
  intro e he
  obtain ⟨e, hmem, rfl⟩ := List.mem_map.mp he
  exact (hall e hmem).withCss _

end AllOwn

theorem exists_of_mem_values_foldl_mapClass (cs : List GlobalClass) :
    ∀ ref ∈ (cs.foldl mapClass []).values,
      ∃ c ∈ cs, ref = ⟨Style.classId c.selector, c.selector⟩ := by
  induction cs using List.reverseRecOn with
  | nil => exact fun _ href => absurd href List.not_mem_nil
  | append_singleton cs c ih =>
    intro ref href
    rw [List.foldl_append] at href
    rcases mem_values_mapClass href with rfl | href
    · exact ⟨c, by simp, rfl⟩
    · obtain ⟨d, hd, rfl⟩ := ih ref href
      exact ⟨d, List.mem_append_left _ hd, rfl⟩

theorem sound_stylesOf (r : Resolver) (cs : List GlobalClass) (items : List Item)
    (postTypes : List Text) :
    Sound cs (stylesOf r cs (cs.foldl mapClass []) items postTypes) := by
  have hm := exists_of_mem_values_foldl_mapClass cs
  have hclasses : Sound cs (cs.foldl (addClass r) builtinStyles) :=
    List.foldlRecOn _ _ (.builtin cs) fun _ h _ hc => h.addClass r hc
  have helements := List.foldlRecOn (Element.collect r items postTypes).styles mergeStyle hclasses
    fun _ h e he => h.mergeStyle (AllOwn.collect cs r items postTypes e he)
  have hcustom := List.foldlRecOn (customStyles (sheetOf r cs items postTypes) (cs.foldl mapClass []))
    mergeStyle helements fun _ h e he => h.mergeStyle (AllOwn.customStyles hm _ e he)
  have hblocks := List.foldlRecOn (Table.group (blocksOf r cs)) (addBlocks (cs.foldl mapClass []))
    hcustom fun _ h e _ => h.addBlocks hm e
  rw [stylesOf_eq]
  exact hblocks.finish

theorem keys_subset_stylesOf (r : Resolver) (cs : List GlobalClass) (m : StyleMap)
    (items : List Item) (postTypes : List Text) :
    (cs.foldl (addClass r) builtinStyles).keys ⊆ (stylesOf r cs m items postTypes).keys := by
  have hmerge : ∀ (entries styles : StyleSet),
      styles.keys ⊆ (entries.foldl mergeStyle styles).keys := by
    intro entries styles
    refine keys_subset_foldl (fun styles entry => ?_) entries styles
    unfold mergeStyle
    split <;> exact keys_subset_set _ _ _
  have hadd : ∀ (entries : Table (List Text)) (styles : StyleSet),
      styles.keys ⊆ (entries.foldl (addBlocks m) styles).keys := by
    intro entries styles
    refine keys_subset_foldl (fun styles entry => ?_) entries styles
    unfold addBlocks
    split
    · exact List.Subset.refl _
    · split
      · exact List.Subset.refl _
      · exact keys_subset_set _ _ _
  rw [stylesOf_eq, keys_map]
  exact List.Subset.trans (List.Subset.trans (hmerge _ _) (hmerge _ _)) (hadd _ _)

theorem classId_mem_keys (r : Resolver) {c : GlobalClass} (hc : c ∈ cs) (styles : StyleSet) :
    Style.classId c.selector ∈ (cs.foldl (addClass r) styles).keys := by
  induction cs generalizing styles with
  | nil => exact absurd hc List.not_mem_nil
  | cons d cs ih =>
    rcases List.mem_cons.mp hc with rfl | hc
    · refine keys_subset_foldl (fun styles d => keys_subset_set _ _ _) cs _ ?_
      exact List.mem_map.mpr ⟨_, mem_of_get? (get?_set_self styles _ _), rfl⟩
    · exact ih hc _

/-- Styles and the map of styles fit together. -/
structure Output.Consistent (o : Output) : Prop where
  nodup_keys : o.styles.keys.Nodup
  id_eq : ∀ e ∈ o.styles, e.2.id = e.1
  nodup_selectors : (o.styles.values.map (·.selector)).Nodup
  mapped : ∀ ref ∈ o.styleMap.values,
    ∃ s, Table.get? o.styles ref.id = some s ∧ s.selector = ref.selector
  idFor?_eq : ∀ e ∈ o.styles, e.2.readonly = false → Style.idFor? e.2.selector = some e.1
  readonly_iff : ∀ e, e ∈ o.styles ∧ e.2.readonly = true ↔ e ∈ builtinStyles

namespace Sound

theorem selector_inj (h : Sound cs styles) {e e' : Text × Style} (he : e ∈ styles)
    (he' : e' ∈ styles) (hselector : e.2.selector = e'.2.selector) : e.1 = e'.1 := by
  have hbuiltin : ∀ e ∈ builtinStyles, ∀ e' ∈ builtinStyles,
      e.2.selector = e'.2.selector → e.1 = e'.1 := by decide +kernel
  have hnone : ∀ e ∈ builtinStyles, Style.idFor? e.2.selector = none :=
    fun e he => (builtin_spec e he).2.2.1
  rcases h.builtin_or_own e he with hb | hown <;> rcases h.builtin_or_own e' he' with hb' | hown'
  · exact hbuiltin e hb e' hb' hselector
  · exact absurd (hselector ▸ hnone e hb) (by simp [hown'.idFor?_eq])
  · exact absurd (hselector ▸ hnone e' hb') (by simp [hown.idFor?_eq])
  · exact Option.some.inj (hown.idFor?_eq.symm.trans (hselector ▸ hown'.idFor?_eq))

theorem exists_selector_eq (h : Sound cs styles) (hcs : Separate cs) {c : GlobalClass} (hc : c ∈ cs)
    (hkey : Style.classId c.selector ∈ styles.keys) :
    ∃ s, Table.get? styles (Style.classId c.selector) = some s ∧ s.selector = c.selector := by
  obtain ⟨⟨key, style⟩, hmem, rfl⟩ := List.mem_map.mp hkey
  have hget := get?_of_mem h.nodup_keys hmem
  have hown := h.own_of_get? (Own.ofClass hc []).key_notMem hget
  refine ⟨style, hget, ?_⟩
  rcases hown.origin with ⟨d, hd, hselector, hid⟩ | ⟨name, -, hid⟩
  · rw [hselector]
    exact hcs d hd c hc hid.symm
  · exact absurd hid.symm (Style.elementId_ne_classId name _)

end Sound

/-- If no two of the classes converted have one id, styles and map of styles fit together. -/
theorem convert_consistent (s : Session) (classes : List GlobalClass) (items : List Item)
    (h : Separate (s.converted classes items)) :
    (s.convert classes items).1.Consistent := by
  have hsound : Sound (s.converted classes items) (s.convert classes items).1.styles := by
    rw [convert_styles]
    exact sound_stylesOf _ _ items _
  constructor
  case nodup_keys => exact hsound.nodup_keys
  case id_eq =>
    intro e he
    rcases hsound.builtin_or_own e he with hb | hown
    · exact (builtin_spec e hb).2.1
    · exact hown.id_eq
  case nodup_selectors =>
    have hkey := hsound.nodup_keys
    rw [values, List.map_map]
    refine List.Nodup.map_on (fun e he e' he' heq => ?_) (List.Nodup.of_map _ hkey)
    exact List.inj_on_of_nodup_map hkey he he' (hsound.selector_inj he he' heq)
  case mapped =>
    intro ref href
    rw [convert_styleMap] at href
    obtain ⟨c, hc, rfl⟩ := exists_of_mem_values_foldl_mapClass _ ref href
    have hkey : Style.classId c.selector ∈ (s.convert classes items).1.styles.keys := by
      rw [convert_styles]
      exact keys_subset_stylesOf _ _ _ items _ (classId_mem_keys _ hc _)
    exact hsound.exists_selector_eq h hc hkey
  case idFor?_eq =>
    intro e he hreadonly
    rcases hsound.builtin_or_own e he with hb | hown
    · exact absurd (builtin_spec e hb).1 (by simp [hreadonly])
    · exact hown.idFor?_eq
  case readonly_iff =>
    intro e
    constructor
    · rintro ⟨he, hreadonly⟩
      refine (hsound.builtin_or_own e he).resolve_right fun hown => ?_
      exact absurd hreadonly (by simp [hown.readonly_eq])
    · intro hb
      exact ⟨hsound.builtin_subset hb, (builtin_spec e hb).1⟩

def lettered : Item :=
  ⟨"1", "page", [⟨"top", "section", [("_opacity", .scalar "0.5"),
    (CustomCss.key, .scalar "%root%\x7bcolor:red\x7d #top\x7bcolor:red\x7d")]⟩], .none, .none⟩

def carded : List GlobalClass :=
  [⟨"a1", "card", [], [(CustomCss.key, .scalar ".card,.box,#top\x7bcolor:red\x7d")]⟩,
    ⟨"b2", "box", [], [("_zIndex", .scalar "2")]⟩]

theorem convert_consistent_carded :
    Separate (Session.converted { options := { restrict := false } } carded [lettered]) ∧
      (Session.convert { options := { restrict := false } } carded [lettered]).1.Consistent := by
  have hseparate :
      Separate (Session.converted { options := { restrict := false } } carded [lettered]) := by
    decide +kernel
  exact ⟨hseparate, convert_consistent _ _ _ hseparate⟩

end Session

end Restyle
