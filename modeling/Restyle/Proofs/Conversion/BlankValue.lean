import Restyle.Proofs.Conversion.Routing
import Restyle.Proofs.Group.Blank

/-! # Settings without blank declarations

The declarations of settings have a blank value exactly if a blank text is read
for them as it stands. If no text in the settings is blank, no declaration is, in
nested rules and media blocks neither, and settings that are nothing or an empty
text may be left out.
-/

namespace Restyle

open Text

namespace Settings

open Declaration Restyle.Group

/-- The setting under the first of some keys that is not empty. -/
def first? (s : Settings) (keys : List Text) : Option Setting :=
  keys.findSome? (s.nonEmpty? ·)

theorem hasBlank_ofFirst (s : Settings) (keys : List Text) (convert : Setting → List Declaration) :
    HasBlank (Conversion.ofFirst s keys convert) ↔ ∃ b ∈ s.first? keys, HasBlank (convert b) := by
  rw [Conversion.ofFirst, ← first?]
  cases s.first? keys <;> simp

/-- A blank text is read where nothing is added to it. -/
inductive ReadsBlank (s : Settings) : Prop where
  | layout (h : s.BlankAmong layoutKeys)
  | flexDirection (h : BlankRead (flexDirection? s))
  | flexContainer (h : s.BlankAmong flexContainerKeys)
  | flexItem (h : s.BlankAmong flexItemKeys)
  | grid (h : s.BlankAmong gridKeys)
  | placement (h : ∃ axis ∈ axes, BlankPlacement s axis)
  | size (h : s.BlankAmong sizeKeys)
  | bound (h : ∃ e ∈ sizeBounds, BlankRead (s.text? e.1 <|> s.text? e.2.1))
  | background (h : ∃ b ∈ s.first? ["_background", "background"], BlankBackground b)
  | border (h : ∃ b ∈ s.first? ["_border", "border"], BlankBorder b)
  | typography (h : ∃ b ∈ s.first? ["_typography", "typography"], BlankTypography b)
  | spacing (h : ∃ b ∈ s.first? ["spacing"],
      BlankRead (textOf? b "margin") ∨ BlankRead (textOf? b "padding"))
  | margin (h : BlankBox s (some "_margin") marginKeys)
  | padding (h : BlankBox s (some "_padding") paddingKeys)
  | position (h : s.BlankAt "_position")
  | inset (h : BlankBox s none insetKeys)
  | effect (h : s.BlankAmong effectKeys)

theorem not_hasBlank_content (s : Settings) : ¬ HasBlank (Conversion.content s) := by
  unfold Conversion.content
  dsimp only
  split_ifs with h
  · exact hasBlank_nil
  · rw [List.isEmpty_iff] at h
    rw [hasBlank_cons, or_iff_left hasBlank_nil]
    exact (trimmed_contentValue h).not_blank h

/-- A declaration of settings is blank exactly if a blank text is read for it. -/
theorem hasBlank_declarations_iff (s : Settings) :
    HasBlank (Conversion.declarations s) ↔ s.ReadsBlank := by
  have hgradient : ¬ ∃ b ∈ s.first? ["_gradient"], HasBlank (gradient? b).toList :=
    fun ⟨b, _, hb⟩ => not_hasBlank_gradient b hb
  unfold Conversion.declarations
  simp only [hasBlank_append, not_hasBlank_content, hasBlank_layout, hasBlank_flexbox,
    hasBlank_flexContainer, hasBlank_grid, hasBlank_sizing, hasBlank_ofFirst, hasBlank_background,
    hgradient, hasBlank_border, hasBlank_typography, hasBlank_spacing,
    hasBlank_marginPadding, hasBlank_position, hasBlank_effects, false_or, or_false]
  constructor
  · rintro ((((((((((h | ((h | h) | h)) | (h | h)) | (h | h)) | h) | h) | h) | h) | (h | h)) |
      (h | h)) | h)
    exacts [.layout h, .flexDirection h, .flexContainer h, .flexItem h, .grid h, .placement h, .size h,
      .bound h, .background h, .border h, .typography h, .spacing h, .margin h, .padding h,
      .position h, .inset h, .effect h]
  · intro h
    cases h <;> simp only [*, true_or, or_true]

end Settings

namespace Setting

inductive Within (v : Setting) : Setting → Prop where
  | self : Within v v
  | field {s s' : Setting} {key : Text} (h : s.get? key = some s') (hv : Within v s') : Within v s

/-- No text that is found in a setting is of white space only. -/
def Visible (s : Setting) : Prop :=
  ∀ t, (scalar t).Within s → t ≠ [] → ¬ Blank t

variable {s : Setting}

namespace Visible

theorem get? {key : Text} {v : Setting} (h : s.Visible) (hv : v ∈ s.get? key) : v.Visible :=
  fun t ht => h t (.field hv ht)

theorem not_present? (h : s.Visible) : ¬ BlankRead s.present? := by
  rintro ⟨t, ht, hblank⟩
  cases s with
  | scalar u =>
    simp only [Setting.present?] at ht
    split_ifs at ht with hne
    · cases ht
    · obtain rfl := Option.some.inj ht
      exact h u .self hne hblank
  | _ => cases ht

theorem not_text? (h : s.Visible) : ¬ BlankRead s.text? :=
  s.blankRead_text?.not.mpr h.not_present?

theorem not_textOf? (h : s.Visible) (key : Text) : ¬ BlankRead (Group.textOf? s key) := by
  intro hb
  obtain ⟨v, hv, hb⟩ := blankRead_bind_iff.mp hb
  exact (h.get? hv).not_text? hb

theorem not_colorOf? (h : s.Visible) (key : Text) : ¬ BlankRead (Group.colorOf? s key) := by
  intro hb
  obtain ⟨v, hv, hb⟩ := blankRead_bind_iff.mp hb
  have hvisible := h.get? hv
  cases v with
  | map entries => exact hvisible.not_textOf? "raw" hb
  | _ => exact hvisible.not_text? hb

end Visible

theorem visible_scalar_iff {t : Text} : (scalar t).Visible ↔ (t ≠ [] → ¬ Blank t) := by
  refine ⟨fun h => h t .self, fun h u hu => ?_⟩
  cases hu with
  | self => exact h
  | field hget _ => cases hget

theorem visible_map {entries : Table Setting} (h : ∀ e ∈ entries, e.2.Visible) :
    (map entries).Visible := by
  intro t ht
  cases ht with
  | field hget hv => exact h _ (Table.mem_of_get? hget) t hv

end Setting

namespace Settings

open Declaration Restyle.Group

def Visible (s : Settings) : Prop :=
  ∀ e ∈ s, e.2.Visible

variable {s : Settings}

namespace Visible

theorem get? {key : Text} {v : Setting} (h : s.Visible) (hv : v ∈ Table.get? s key) : v.Visible :=
  h _ (Table.mem_of_get? hv)

theorem not_blankAt (h : s.Visible) (key : Text) : ¬ s.BlankAt key := by
  intro hb
  obtain ⟨v, hv, hb⟩ := blankRead_bind_iff.mp hb
  exact (h.get? hv).not_present? hb

theorem not_blankAmong (h : s.Visible) (keys : List Text) : ¬ s.BlankAmong keys :=
  fun ⟨key, _, hb⟩ => h.not_blankAt key hb

theorem not_text? (h : s.Visible) (key : Text) : ¬ BlankRead (s.text? key) :=
  (s.blankRead_text? key).not.mpr (h.not_blankAt key)

theorem not_text?_orElse (h : s.Visible) (key older : Text) :
    ¬ BlankRead (s.text? key <|> s.text? older) :=
  fun hb => hb.of_orElse.elim (h.not_text? key) (h.not_text? older)

theorem first? {keys : List Text} {b : Setting} (h : s.Visible) (hb : b ∈ s.first? keys) :
    b.Visible := by
  obtain ⟨key, -, hb⟩ := List.exists_of_findSome?_eq_some hb
  exact h.get? (Option.filter_eq_some_iff.mp hb).1

theorem not_blankPlacement (h : s.Visible) (axis : Text) : ¬ BlankPlacement s axis := by
  rintro (hb | ⟨-, -, hb⟩)
  · exact h.not_blankAmong _ hb
  · exact h.not_blankAt _ hb

theorem not_blankBox (h : s.Visible) (compoundKey : Option Text) (keys : SideKeys) :
    ¬ BlankBox s compoundKey keys := by
  have hcompound : ∀ c ∈ SideValues.compound? s compoundKey, c.Visible := by
    intro c hc
    obtain ⟨key, -, hc⟩ := Option.bind_eq_some_iff.mp hc
    exact h.get? hc
  rintro (hb | ⟨⟨side, hb⟩, -⟩)
  · obtain ⟨c, hc, hb⟩ := blankRead_bind_iff.mp hb
    exact (hcompound c hc).not_present? hb
  · rcases hb.of_orElse with hb | hb
    · exact h.not_blankAt _ hb
    · obtain ⟨v, hv, hb⟩ := blankRead_bind_iff.mp hb
      obtain ⟨c, hc, hv⟩ := Option.bind_eq_some_iff.mp hv
      exact ((hcompound c hc).get? hv).not_present? hb

end Visible

end Settings

namespace Setting.Visible

open Restyle.Group

variable {b : Setting}

theorem not_blankSides (h : b.Visible) : ¬ BlankSides b := by
  rintro (hb | hb)
  · exact h.not_present? hb
  · obtain ⟨v, hv, hb⟩ := blankRead_bind_iff.mp (hb .top)
    exact (h.get? hv).not_present? hb

theorem not_textOf?_orElse (h : b.Visible) (key other : Text) :
    ¬ BlankRead (textOf? b key <|> textOf? b other) :=
  fun hb => hb.of_orElse.elim (h.not_textOf? key) (h.not_textOf? other)

theorem not_blankBackground (h : b.Visible) : ¬ BlankBackground b := by
  rintro (hb | ⟨image, hi, -, field, -, hb⟩)
  · exact h.not_colorOf? _ hb
  · exact (h.get? hi).not_textOf? field hb

theorem not_blankBorder (h : b.Visible) : ¬ BlankBorder b := by
  rintro (hb | hb | ⟨field, -, w, hw, hb⟩)
  · exact h.not_textOf? _ hb
  · exact h.not_colorOf? _ hb
  · exact (h.get? hw).not_blankSides hb

theorem not_blankTypography (h : b.Visible) : ¬ BlankTypography b := by
  rintro (hb | ⟨e, -, hb⟩)
  · exact h.not_colorOf? _ hb
  · exact h.not_textOf?_orElse _ _ hb

end Setting.Visible

namespace Settings

variable {s : Settings}

/-- Where no text is blank, none is read. -/
theorem Visible.not_readsBlank (h : s.Visible) : ¬ s.ReadsBlank := by
  intro hs
  cases hs with
  | flexDirection hb => exact h.not_text?_orElse _ _ hb
  | placement hb =>
    obtain ⟨axis, -, hb⟩ := hb
    exact h.not_blankPlacement axis hb
  | bound hb =>
    obtain ⟨e, -, hb⟩ := hb
    exact h.not_text?_orElse _ _ hb
  | background hb =>
    obtain ⟨b, hb, hblank⟩ := hb
    exact (h.first? hb).not_blankBackground hblank
  | border hb =>
    obtain ⟨b, hb, hblank⟩ := hb
    exact (h.first? hb).not_blankBorder hblank
  | typography hb =>
    obtain ⟨b, hb, hblank⟩ := hb
    exact (h.first? hb).not_blankTypography hblank
  | spacing hb =>
    obtain ⟨b, hb, hblank⟩ := hb
    exact hblank.elim ((h.first? hb).not_textOf? _) ((h.first? hb).not_textOf? _)
  | margin hb | padding hb | inset hb => exact h.not_blankBox _ _ hb
  | position hb => exact h.not_blankAt _ hb
  | layout hb | flexContainer hb | flexItem hb | grid hb | size hb | effect hb =>
    exact h.not_blankAmong _ hb

end Settings

namespace Conversion

open Declaration Restyle.Group Resolver

/-- The settings whose declarations are written: the settings themselves, those of a nested rule or
a media block, and those of a nested rule in a media block. -/
inductive Part (r : Resolver) (s : Settings) : Settings → Prop where
  | base : Part r s s
  | nested {suffix : Text} {t : Settings} (h : (suffix, t) ∈ variants r s) : Part r s t
  | media {breakpoint : Text} {t : Settings} (h : (breakpoint, t) ∈ buckets r s) : Part r s t
  | mediaNested {breakpoint suffix : Text} {t u : Settings} (h : (breakpoint, t) ∈ buckets r s)
      (hu : (suffix, u) ∈ variants r t) : Part r s u

variable {r : Resolver} {s t : Settings} {key : Text}

theorem visible_of_mem_bucket {entries : List (Text × Text × Setting)} {name : Text}
    (h : ∀ e ∈ entries, e.2.2.Visible) (ht : (name, t) ∈ bucket entries) : t.Visible := by
  induction entries using List.reverseRecOn generalizing name t with
  | nil => cases ht
  | append_singleton entries e ih =>
    obtain ⟨name', key, value⟩ := e
    have hold {name : Text} {t : Settings} (ht : (name, t) ∈ bucket entries) : t.Visible :=
      ih (fun e he => h e (List.mem_append_left _ he)) ht
    rw [bucket_snoc] at ht
    rcases Table.mem_set ht with he | ht
    · obtain ⟨rfl, rfl⟩ := Prod.mk.inj he
      intro e he
      rcases Table.mem_set he with rfl | he
      · exact h _ (List.mem_append_right _ List.mem_cons_self)
      · cases hget : (bucket entries).get? name with
        | none =>
          rw [hget] at he
          cases he
        | some u =>
          rw [hget] at he
          exact hold (Table.mem_of_get? hget) e he
    · exact hold ht

theorem visible_variants (h : s.Visible) {suffix : Text} (ht : (suffix, t) ∈ variants r s) :
    t.Visible := by
  refine visible_of_mem_bucket (fun e he => ?_) ht
  obtain ⟨⟨key, value⟩, hs, hkey⟩ := List.mem_filterMap.mp he
  obtain ⟨⟨base, suffix⟩, -, rfl⟩ := Option.map_eq_some_iff.mp hkey
  exact h (key, value) hs

theorem visible_buckets (h : s.Visible) {breakpoint : Text} (ht : (breakpoint, t) ∈ buckets r s) :
    t.Visible := by
  refine visible_of_mem_bucket (fun e he => ?_) ht
  obtain ⟨⟨key, value⟩, hs, hkey⟩ := List.mem_filterMap.mp he
  dsimp only at hkey
  split at hkey
  · cases hkey
  · split_ifs at hkey
    obtain rfl := Option.some.inj hkey
    exact h (key, value) hs

theorem Part.visible (ht : Part r s t) (h : s.Visible) : t.Visible := by
  cases ht with
  | base => exact h
  | nested ht => exact visible_variants h ht
  | media ht => exact visible_buckets h ht
  | mediaNested ht hu => exact visible_variants (visible_buckets h ht) hu

theorem exists_visible_of_flexDisplay (h : s.Visible) (hflex : flexDisplay s ≠ []) :
    ∃ d ∈ flexContainer s, ¬ Blank d.value := by
  have hne : flexContainer s ≠ [] := by
    rintro he
    exact hflex (by simp [flexDisplay, he])
  obtain ⟨d, hd⟩ := List.exists_mem_of_ne_nil _ hne
  refine ⟨d, hd, fun hblank => ?_⟩
  rcases (hasBlank_flexContainer s).mp ⟨d, hd, hblank⟩ with hb | hb
  · exact h.not_readsBlank (.flexDirection hb)
  · exact h.not_readsBlank (.flexContainer hb)

theorem alike_erase (h : Setting.Unset (Table.get? s key)) : Settings.Alike (Table.erase key s) s := by
  intro k _
  rw [Table.get?_erase]
  split_ifs with hk
  · exact .unset Setting.unset_none (hk ▸ h)
  · exact .refl _

theorem variantKey?_of_notMem (breakpoints : List Text) (hcolon : ':' ∉ key) :
    variantKey? breakpoints key = none := by
  unfold variantKey?
  rw [cut?_eq_none (beq_eq_false_of_notMem hcolon)]
  exact ite_self none

theorem buckets_filter {p : Text × Setting → Bool} (r : Resolver)
    (hp : ∀ e ∈ s, p e = false → ':' ∉ e.1) : buckets r (s.filter p) = buckets r s := by
  unfold buckets
  rw [List.filterMap_filter]
  congr 1
  refine List.filterMap_congr fun ⟨key, value⟩ he => ?_
  split_ifs with h
  · rfl
  · dsimp only
    rw [cutLast?_eq_none (beq_eq_false_of_notMem (hp _ he (Bool.eq_false_iff.mpr h)))]

theorem css_erase (hcolon : ':' ∉ key) (h : Setting.Unset (Table.get? s key)) (r : Resolver)
    (className : Option Text) : css r (Table.erase key s) className = css r s className ∧
      responsiveCss r (Table.erase key s) className = responsiveCss r s className := by
  have hkey : ∀ e ∈ s, decide (e.1 ≠ key) = false → ':' ∉ e.1 := by
    intro e _ he
    rwa [not_not.mp (of_decide_eq_false he)]
  have hvariants : variants r (Table.erase key s) = variants r s := by
    refine variants_filter r fun e he hout => ?_
    have hno := hkey e he hout
    refine ⟨dropStart?_eq_none.mpr fun rest hrest => hno ?_, variantKey?_of_notMem _ hno⟩
    rw [hrest]
    exact List.mem_append_left _ (by decide)
  constructor
  · unfold css variantCss
    rw [hvariants, (alike_erase h).declarations]
  · unfold responsiveCss
    rw [Table.erase, buckets_filter r hkey]

/-- In every part the declarations are blank exactly if a blank text is read for them. Where no text
is blank, no declaration is, and no blank value makes a flex box. A setting that is nothing or an
empty text contributes nothing. -/
theorem blank_values (r : Resolver) (s : Settings) (className : Option Text) :
    (∀ t, Part r s t → (HasBlank (declarations t) ↔ t.ReadsBlank)) ∧
    (s.Visible → ∀ t, Part r s t → ¬ HasBlank (declarations t) ∧
      (flexDisplay t ≠ [] → ∃ d ∈ flexContainer t, ¬ Blank d.value)) ∧
    (∀ t, Part r s t → ∀ key, Setting.Unset (Table.get? t key) →
      declarations (Table.erase key t) = declarations t) ∧
    ∀ key, ':' ∉ key → Setting.Unset (Table.get? s key) →
      css r (Table.erase key s) className = css r s className ∧
        responsiveCss r (Table.erase key s) className = responsiveCss r s className := by
  refine ⟨fun t _ => t.hasBlank_declarations_iff, fun h t ht => ?_, fun t _ key hkey => ?_,
    fun key hcolon hkey => css_erase hcolon hkey r className⟩
  · have hvisible := ht.visible h
    exact ⟨(t.hasBlank_declarations_iff).not.mpr hvisible.not_readsBlank,
      exists_visible_of_flexDisplay hvisible⟩
  · exact (alike_erase hkey).declarations

def padded : Settings :=
  [("_width", .scalar "1px"), ("_gap", .scalar []), ("_padding:hover", .map [("top", .scalar " 2px")])]

def paddedHover : Settings :=
  [("_padding", .map [("top", .scalar " 2px")])]

theorem blank_values_padded :
    let r := ofOverrides []
    padded.Visible ∧ Part r padded paddedHover ∧ ¬ HasBlank (declarations paddedHover) ∧
      Setting.Unset (Table.get? padded "_gap") ∧
      css r (Table.erase "_gap" padded) (some "card") = css r padded (some "card") := by
  intro r
  have hscalar {t : Text} (ht : t ≠ [] → ¬ Blank t) : (Setting.scalar t).Visible :=
    Setting.visible_scalar_iff.mpr ht
  have hvisible : padded.Visible := by
    intro e he
    rcases List.mem_cons.mp he with rfl | he
    · exact hscalar (by decide)
    rcases List.mem_cons.mp he with rfl | he
    · exact hscalar (by decide)
    obtain rfl := List.mem_singleton.mp he
    refine Setting.visible_map fun e he => ?_
    obtain rfl := List.mem_singleton.mp he
    exact hscalar (by decide)
  have hvariants : variants r padded = ([((":hover" : Text), paddedHover)] : Table Settings) := by rfl
  have hpart : Part r padded paddedHover := .nested (hvariants ▸ List.mem_singleton_self _)
  have hgap : Setting.Unset (Table.get? padded "_gap") := by
    rintro b hb
    obtain rfl := Option.some.inj hb
    exact .inr rfl
  obtain ⟨-, hblank, -, herase⟩ := blank_values r padded (some "card")
  exact ⟨hvisible, hpart, (hblank hvisible _ hpart).1, hgap, (herase _ (by decide) hgap).1⟩

/-- Spaces make declarations with nothing to see in them, and one of them makes a flex box. -/
theorem declarations_space :
    declarations [("_justifyContent", .scalar " "), ("_width", .scalar " ")] =
      [⟨"display", "flex"⟩, ⟨"flex-direction", "column"⟩, ⟨"justify-content", " "⟩,
        ⟨"inline-size", " "⟩] ∧ Blank " " :=
  ⟨by rfl, by decide⟩

end Conversion

end Restyle
