import Restyle.Proofs.Conversion.Reading
import Restyle.Proofs.Declaration.ContentValue
import Restyle.Proofs.Group.Sides

/-! # Blank values

A text counts as missing only if it has no characters, so a text of white space
is read like any other and becomes the value of a declaration, unless something
is added to it: calls of functions, urls and shadows are never blank, and four
sides in one value are blank only together.
-/

namespace Restyle

open Text

def BlankRead (value : Option Text) : Prop :=
  ∃ t ∈ value, Blank t

instance (value : Option Text) : Decidable (BlankRead value) :=
  inferInstanceAs (Decidable (∃ t ∈ value, Blank t))

@[simp] theorem blankRead_none : ¬ BlankRead none := by simp [BlankRead]

@[simp] theorem blankRead_some {t : Text} : BlankRead (some t) ↔ Blank t := by simp [BlankRead]

theorem blankRead_map {f : Text → Text} (hf : ∀ t, Blank (f t) ↔ Blank t) (value : Option Text) :
    BlankRead (value.map f) ↔ BlankRead value := by
  cases value with
  | none => rfl
  | some t => simp [hf]

theorem blankRead_bind_iff {a : Option Setting} {f : Setting → Option Text} :
    BlankRead (a.bind f) ↔ ∃ v ∈ a, BlankRead (f v) := by
  cases a <;> simp

theorem BlankRead.of_orElse {a b : Option Text} (h : BlankRead (a <|> b)) :
    BlankRead a ∨ BlankRead b := by
  cases a with
  | none => exact .inr h
  | some t => exact .inl h

namespace Declaration

/-- A declaration without a value to see. -/
def HasBlank (ds : List Declaration) : Prop :=
  ∃ d ∈ ds, Blank d.value

instance (ds : List Declaration) : Decidable (HasBlank ds) :=
  inferInstanceAs (Decidable (∃ d ∈ ds, Blank d.value))

variable {ds es : List Declaration} {t : Text}

@[simp] theorem hasBlank_nil : ¬ HasBlank [] := by simp [HasBlank]

@[simp] theorem hasBlank_cons (d : Declaration) :
    HasBlank (d :: ds) ↔ Blank d.value ∨ HasBlank ds := by
  simp [HasBlank]

@[simp] theorem hasBlank_append : HasBlank (ds ++ es) ↔ HasBlank ds ∨ HasBlank es := by
  simp [HasBlank, or_and_right, exists_or]

theorem hasBlank_flatMap {α : Type} {entries : List α} {f : α → List Declaration} :
    HasBlank (entries.flatMap f) ↔ ∃ e ∈ entries, HasBlank (f e) := by
  induction entries with
  | nil => simp
  | cons e entries ih => simp [ih]

@[simp] theorem hasBlank_ofValue (property : Text) (value : Option Text) :
    HasBlank (ofValue property value) ↔ BlankRead value := by
  cases value <;> simp [ofValue]

theorem blank_quadValue_iff {top right bottom left : Text} :
    Blank (quadValue top right bottom left) ↔
      ∀ side, Blank (BoxSide.four top right bottom left side) := by
  rw [BoxSide.quadValue_eq_join, blank_join_iff (by decide)]
  refine ⟨fun h side => h _ ?_, fun h v hv => ?_⟩
  · unfold BoxSide.quadValues
    split_ifs with hall hpairs hsides
    · obtain ⟨rfl, rfl, rfl⟩ := hall
      cases side <;> simp [BoxSide.four]
    · obtain ⟨rfl, rfl⟩ := hpairs
      cases side <;> simp [BoxSide.four]
    · obtain rfl := hsides
      cases side <;> simp [BoxSide.four]
    · cases side <;> simp [BoxSide.four]
  · obtain ⟨side, rfl⟩ := BoxSide.exists_side_of_mem_quadValues hv
    exact h side

theorem blank_borderWidth_iff : Blank (borderWidth t) ↔ Blank t := by
  rw [← blank_trim_iff (t := t)]
  unfold borderWidth
  dsimp only
  split_ifs with hplain hzero
  · rfl
  all_goals
    have hne : trim t ≠ [] := fun he => by
      rw [he] at hplain
      exact hplain (by decide)
    have htrim : ¬ Blank (trim t) := (trimmed_trim t).not_blank hne
  · exact iff_of_false (by decide) htrim
  · exact iff_of_false (fun h => htrim fun c hc => h c (List.mem_append_left _ hc)) htrim

theorem blank_borderWidths_iff : Blank (borderWidths t) ↔ Blank t := by
  unfold borderWidths
  dsimp only
  split_ifs with hwords
  -- Something is left of the text, so it has a word, and the width of that word is in the value.
  · have hne : trim t ≠ [] := by
      rintro he
      simp [he] at hwords
    have ht : ¬ Blank t := mt trim_eq_nil_iff.mpr hne
    obtain ⟨w, hw⟩ := List.exists_mem_of_ne_nil _ (mt words_eq_nil_iff.mp (mt blank_trim_iff.mp ht))
    have htoken := isToken_of_mem_words hw
    refine iff_of_false (not_blank_join (List.mem_map_of_mem hw) ?_) ht
    rw [blank_borderWidth_iff]
    exact (trimmed_of_visible htoken.visible).not_blank htoken.ne_nil
  · rw [blank_borderWidth_iff, blank_trim_iff]

theorem blank_spanValue_iff : Blank (Group.spanValue t) ↔ Blank t := by
  have hspan : ¬ Blank ("span " ++ t) := fun h => absurd (h 's' (by simp)) (by decide)
  have hnone : Binary64.ofText? [] = none := by decide
  unfold Group.spanValue
  split
  · rfl
  all_goals
    rename_i hnumber
    have ht : ¬ Blank t := fun h => by
      rw [trim_eq_nil h, hnone] at hnumber
      exact absurd hnumber (by simp)
  · split_ifs
    · exact iff_of_false (by decide) ht
    · exact iff_of_false hspan ht
  · exact iff_of_false hspan ht

end Declaration

namespace Setting

theorem blankRead_text? (s : Setting) : BlankRead s.text? ↔ BlankRead s.present? := by
  cases s with
  | scalar t =>
    unfold text? present?
    rcases eq_or_ne t ['0'] with rfl | h
    · decide
    · simp [h]
  | _ => rfl

end Setting

namespace Settings

open Declaration

def BlankAt (s : Settings) (key : Text) : Prop :=
  BlankRead (s.present? key)

def BlankAmong (s : Settings) (keys : List Text) : Prop :=
  ∃ key ∈ keys, s.BlankAt key

variable {s : Settings} {keys keys' : List Text}

theorem blankRead_text? (s : Settings) (key : Text) : BlankRead (s.text? key) ↔ s.BlankAt key := by
  unfold BlankAt text? present?
  cases Table.get? s key with
  | none => rfl
  | some v => exact v.blankRead_text?

theorem blankAmong_singleton {key : Text} : s.BlankAmong [key] ↔ s.BlankAt key := by
  simp [BlankAmong]

theorem blankAmong_append : s.BlankAmong (keys ++ keys') ↔ s.BlankAmong keys ∨ s.BlankAmong keys' := by
  simp only [BlankAmong, List.mem_append, or_and_right, exists_or]

theorem hasBlank_ofTexts (s : Settings) (entries : Table Text) :
    HasBlank (ofTexts s entries) ↔ s.BlankAmong entries.keys := by
  unfold ofTexts BlankAmong Table.keys
  simp only [hasBlank_flatMap, hasBlank_ofValue, blankRead_text?, List.mem_map,
    exists_exists_and_eq_and]

theorem hasBlank_ofPresent (s : Settings) (entries : Table Text) :
    HasBlank (ofPresent s entries) ↔ s.BlankAmong entries.keys := by
  unfold ofPresent BlankAmong Table.keys
  simp only [hasBlank_flatMap, hasBlank_ofValue, BlankAt, List.mem_map, exists_exists_and_eq_and]

end Settings

namespace Group

open Declaration Settings

variable (s : Settings)

def layoutKeys : List Text :=
  ["_display", "_overflow", "_overflowX", "_overflowY", "_visibility", "_opacity", "_zIndex"]

theorem hasBlank_layout : HasBlank (layout s) ↔ s.BlankAmong layoutKeys := by
  rw [layout, hasBlank_append, hasBlank_ofTexts, hasBlank_ofPresent, ← blankAmong_append]
  rfl

def flexContainerKeys : List Text :=
  ["_flexWrap", "_justifyContent", "_alignItems", "_alignContent", "_rowGap", "_columnGap", "_gap"]

theorem hasBlank_flexContainer : HasBlank (flexContainer s) ↔
    BlankRead (flexDirection? s) ∨ s.BlankAmong flexContainerKeys := by
  rw [flexContainer, hasBlank_append, hasBlank_append, hasBlank_ofValue, hasBlank_ofTexts,
    hasBlank_ofPresent, or_assoc, ← blankAmong_append]
  rfl

theorem not_hasBlank_flexDisplay : ¬ HasBlank (flexDisplay s) := by
  unfold flexDisplay
  split_ifs <;> decide

def flexItemKeys : List Text :=
  ["_flexGrow", "_flexShrink", "_flexBasis", "_alignSelf", "_order"]

theorem hasBlank_flexbox : HasBlank (flexbox s) ↔
    HasBlank (flexContainer s) ∨ s.BlankAmong flexItemKeys := by
  rw [flexbox, hasBlank_append, hasBlank_append, hasBlank_append, hasBlank_append, hasBlank_ofPresent,
    hasBlank_ofTexts, hasBlank_ofPresent, or_iff_right (not_hasBlank_flexDisplay s), or_assoc, or_assoc,
    ← blankAmong_append, ← blankAmong_append]
  rfl

def gridKeys : List Text :=
  ["_gridTemplateColumns", "_gridTemplateRows", "_gridGap", "_gridColumnGap", "_gridRowGap",
    "_justifyContentGrid", "_alignItemsGrid", "_justifyItemsGrid", "_alignContentGrid",
    "_gridAutoFlow"]

def BlankPlacement (axis : Text) : Prop :=
  let key := "_gridItem" ++ axis
  s.BlankAmong [key ++ "Start", key ++ "End"] ∨
    (s.text? (key ++ "Start") = none ∧ s.text? (key ++ "End") = none ∧ s.BlankAt (key ++ "Span"))

theorem ofTexts_pair_eq_nil_iff {start stop property property' : Text} :
    ofTexts s [(start, property), (stop, property')] = [] ↔
      s.text? start = none ∧ s.text? stop = none := by
  simp [ofTexts, ofValue]

theorem hasBlank_gridPlacement (axis property : Text) :
    HasBlank (gridPlacement s axis property) ↔ BlankPlacement s axis := by
  have hspan (key : Text) : BlankRead ((s.text? key).map spanValue) ↔ s.BlankAt key :=
    (blankRead_map (fun _ => blank_spanValue_iff) _).trans (s.blankRead_text? key)
  unfold gridPlacement BlankPlacement
  dsimp only
  split_ifs with hempty
  · rw [List.isEmpty_iff] at hempty
    have hno := (hasBlank_ofTexts s _).not.mp (hempty ▸ hasBlank_nil)
    rw [hasBlank_ofValue, hspan]
    obtain ⟨hstart, hstop⟩ := (ofTexts_pair_eq_nil_iff s).mp hempty
    exact ⟨fun h => .inr ⟨hstart, hstop, h⟩, fun h => (h.resolve_left hno).2.2⟩
  · rw [List.isEmpty_iff, ofTexts_pair_eq_nil_iff] at hempty
    rw [hasBlank_ofTexts]
    exact (or_iff_left fun h => hempty ⟨h.1, h.2.1⟩).symm

def axes : List Text :=
  ["Column", "Row"]

theorem hasBlank_grid : HasBlank (grid s) ↔
    s.BlankAmong gridKeys ∨ ∃ axis ∈ axes, BlankPlacement s axis := by
  rw [grid, hasBlank_append, hasBlank_append, hasBlank_append, hasBlank_append, hasBlank_ofTexts,
    hasBlank_ofPresent, hasBlank_ofTexts, hasBlank_gridPlacement, hasBlank_gridPlacement,
    ← blankAmong_append, ← blankAmong_append, or_assoc]
  simp only [axes, List.mem_cons, List.not_mem_nil, or_false, exists_eq_or_imp, exists_eq_left]
  rfl

def sizeKeys : List Text :=
  ["_width", "_height", "_aspectRatio"]

theorem value_width (value : Text) : (width s value).value = value := by
  unfold width
  dsimp only
  split_ifs with h
  · exact h.2.symm
  · rfl

theorem hasBlank_sizing : HasBlank (sizing s) ↔ s.BlankAmong sizeKeys ∨
    ∃ e ∈ sizeBounds, BlankRead (s.text? e.1 <|> s.text? e.2.1) := by
  have hwidth : HasBlank ((s.text? "_width").map (width s)).toList ↔ s.BlankAmong ["_width"] := by
    have hread : HasBlank ((s.text? "_width").map (width s)).toList ↔
        BlankRead (s.text? "_width") := by
      cases s.text? "_width" <;> simp [value_width]
    rw [hread, blankRead_text?, blankAmong_singleton]
  rw [sizing, hasBlank_append, hasBlank_append, hasBlank_append, hwidth, hasBlank_ofTexts,
    hasBlank_ofTexts, hasBlank_flatMap, ← blankAmong_append, or_right_comm, ← blankAmong_append]
  simp only [hasBlank_ofValue]
  rfl

section Paint

variable (b : Setting)

def imageFields : List Text :=
  ["size", "position", "repeat"]

/-- Only an image with an address has a size, a position and a repetition. -/
def BlankImage (image : Setting) : Prop :=
  (textOf? image "url").isSome ∧ ∃ field ∈ imageFields, BlankRead (textOf? image field)

theorem hasBlank_backgroundImage : HasBlank (backgroundImage b) ↔ BlankImage b := by
  unfold backgroundImage BlankImage imageFields
  cases textOf? b "url" with
  | none => simp
  | some url =>
    have hurl : ¬ Blank ("url(" ++ url ++ ")") := fun h => absurd (h '(' (by simp)) (by decide)
    rw [hasBlank_cons, or_iff_right hurl, hasBlank_append, hasBlank_append, hasBlank_ofValue,
      hasBlank_ofValue, hasBlank_ofValue, or_assoc]
    simp

def BlankBackground : Prop :=
  BlankRead (colorOf? b "color") ∨ ∃ image ∈ b.get? "image", BlankImage image

theorem hasBlank_background : HasBlank (background b) ↔ BlankBackground b := by
  rw [background, BlankBackground, hasBlank_append, hasBlank_ofValue]
  cases b.get? "image" with
  | none => simp
  | some image => simp [hasBlank_backgroundImage]

theorem not_hasBlank_gradient : ¬ HasBlank (gradient? b).toList := by
  rintro ⟨d, hd, hblank⟩
  rw [Option.mem_toList, gradient?_eq] at hd
  obtain ⟨colors, -, hd⟩ := Option.bind_eq_some_iff.mp hd
  split at hd
  · exact absurd hd (by simp)
  · obtain rfl := Option.some.inj hd
    exact absurd (hblank ')' (List.mem_append_right _ (by decide))) (by decide)

def BlankSides (w : Setting) : Prop :=
  BlankRead w.present? ∨ ∀ side, BlankRead (SideValues.ofObject? (some w) side)

theorem blank_sideOrZero_iff (w : Setting) (side : Text) :
    Blank (sideOrZero w side) ↔ BlankRead ((w.get? side).bind Setting.present?) := by
  unfold sideOrZero
  cases (w.get? side).bind Setting.present? with
  | none => exact iff_of_false (by decide) blankRead_none
  | some t => simp

theorem blankRead_fourSides {all one : Text → Text} (hall : ∀ t, Blank (all t) ↔ Blank t)
    (hone : ∀ t, Blank (one t) ↔ Blank t) (w : Setting) :
    BlankRead (fourSides all one w) ↔ BlankSides w := by
  have hnone : ¬ ∀ side : BoxSide, BlankRead none := fun h => blankRead_none (h .top)
  unfold BlankSides
  cases w with
  | scalar t =>
    have hfour : fourSides all one (.scalar t) = (Setting.scalar t).text?.map all := by
      simp only [fourSides, Setting.text?, Bool.or_eq_true, decide_eq_true_eq]
      split_ifs <;> rfl
    change _ ↔ _ ∨ ∀ side : BoxSide, BlankRead none
    rw [or_iff_left hnone, hfour, blankRead_map hall, Setting.blankRead_text?]
  | map entries =>
    change _ ↔ BlankRead none ∨ _
    rw [or_iff_right blankRead_none]
    simp only [fourSides]
    split_ifs with hempty
    · rw [List.isEmpty_iff] at hempty
      exact iff_of_false blankRead_none (hempty ▸ hnone)
    · rw [blankRead_some, blank_quadValue_iff, BoxSide.forall_iff, BoxSide.forall_iff]
      simp only [BoxSide.four, hone, blank_sideOrZero_iff]
      rfl
  | _ => exact iff_of_false blankRead_none (not_or.mpr ⟨blankRead_none, hnone⟩)

def boxFields : List Text :=
  ["width", "radius"]

def BlankBorder : Prop :=
  BlankRead (textOf? b "style") ∨ BlankRead (colorOf? b "color") ∨
    ∃ field ∈ boxFields, ∃ w ∈ b.get? field, BlankSides w

theorem hasBlank_border : HasBlank (border b) ↔ BlankBorder b := by
  have hsides (all one : Text → Text) (hall : ∀ t, Blank (all t) ↔ Blank t)
      (hone : ∀ t, Blank (one t) ↔ Blank t) (field : Text) :
      BlankRead ((b.get? field).bind (fourSides all one)) ↔ ∃ w ∈ b.get? field, BlankSides w := by
    simp only [blankRead_bind_iff, blankRead_fourSides hall hone]
  rw [border, BlankBorder, hasBlank_append, hasBlank_append, hasBlank_append, hasBlank_ofValue,
    hasBlank_ofValue, hasBlank_ofValue, hasBlank_ofValue,
    hsides _ _ (fun _ => blank_borderWidths_iff) (fun _ => blank_borderWidth_iff),
    hsides id id (fun _ => Iff.rfl) fun _ => Iff.rfl]
  simp only [boxFields, List.mem_cons, List.not_mem_nil, or_false, exists_eq_or_imp, exists_eq_left]
  rw [or_assoc, or_assoc, or_left_comm]
  exact or_congr_right or_left_comm

theorem hasBlank_ofFields (fields : Table Text) : HasBlank (ofFields b fields) ↔
    ∃ e ∈ fields, BlankRead (textOf? b e.1 <|> textOf? b e.2) := by
  simp only [ofFields, hasBlank_flatMap, hasBlank_ofValue]

def BlankTypography : Prop :=
  BlankRead (colorOf? b "color") ∨
    ∃ e ∈ textProperties ++ flowProperties, BlankRead (textOf? b e.1 <|> textOf? b e.2)

theorem hasBlank_typography : HasBlank (typography b) ↔ BlankTypography b := by
  rw [typography, BlankTypography, hasBlank_append, hasBlank_append, hasBlank_ofFields,
    hasBlank_ofFields, hasBlank_ofValue]
  simp only [List.mem_append, or_and_right, exists_or]
  rw [or_right_comm, or_comm]

theorem hasBlank_spacing : HasBlank (spacing b) ↔
    BlankRead (textOf? b "margin") ∨ BlankRead (textOf? b "padding") := by
  rw [spacing, hasBlank_append, hasBlank_ofValue, hasBlank_ofValue]

end Paint

section Sides

variable (compoundKey : Option Text) (keys : SideKeys)

open SideValues

/-- A blank compound text or a blank side, and nothing but blank sides if they share a value. -/
def BlankBox : Prop :=
  BlankRead ((compound? s compoundKey).bind Setting.present?) ∨
    (∃ side, BlankRead (single? s compoundKey keys side)) ∧
      (Whole s compoundKey keys → ∀ side, BlankRead (single? s compoundKey keys side))

theorem hasBlank_axis (property : Text) (first second : Text × Option Text) :
    HasBlank (axis property first second) ↔ BlankRead first.2 ∨ BlankRead second.2 := by
  unfold axis
  split_ifs with h
  · rw [hasBlank_ofValue, ← h.2, or_self]
  · rw [hasBlank_append, hasBlank_ofValue, hasBlank_ofValue]

theorem hasBlank_sides (property : Text) :
    HasBlank ((read s compoundKey keys).declarations property) ↔ BlankBox s compoundKey keys := by
  unfold BlankBox
  by_cases h : Whole s compoundKey keys
  -- The four sides share a value, and a compound object is no text.
  · obtain ⟨top, right, bottom, left, hds, hsingle⟩ := exists_declarations_of_whole h property
    rw [hds, direct_eq_none h, or_iff_right blankRead_none]
    simp only [hasBlank_cons, hasBlank_nil, or_false, blank_quadValue_iff, hsingle, blankRead_some]
    exact ⟨fun hb => ⟨⟨.top, hb .top⟩, fun _ => hb⟩, fun hb => hb.2 h⟩
  · have hside : (∃ side, BlankRead (single? s compoundKey keys side)) ↔
        HasBlank (ofAxis property (read s compoundKey keys) .block) ∨
          HasBlank (ofAxis property (read s compoundKey keys) .inline) := by
      unfold ofAxis
      simp only [hasBlank_axis, side?_read]
      constructor
      · rintro ⟨side, hb⟩
        cases side with
        | top => exact .inl (.inl hb)
        | bottom => exact .inl (.inr hb)
        | right => exact .inr (.inl hb)
        | left => exact .inr (.inr hb)
      · rintro ((hb | hb) | (hb | hb)) <;> exact ⟨_, hb⟩
    rw [declarations_of_not_whole h, hasBlank_append, hasBlank_append, hasBlank_ofValue, hside]
    exact or_congr_right (and_iff_left fun hw => absurd hw h).symm

theorem hasBlank_marginPadding : HasBlank (marginPadding s) ↔
    BlankBox s (some "_margin") marginKeys ∨ BlankBox s (some "_padding") paddingKeys := by
  rw [marginPadding, hasBlank_append, hasBlank_sides, hasBlank_sides]

theorem hasBlank_position : HasBlank (position s) ↔
    s.BlankAt "_position" ∨ BlankBox s none insetKeys := by
  rw [position, hasBlank_append, hasBlank_ofTexts, hasBlank_sides, ← blankAmong_singleton]
  rfl

end Sides

section Effects

theorem not_blank_of_calls? {b : Setting} {parts : Table Text} {read : Setting → Option Text}
    {t : Text} (h : t ∈ calls? b parts read) : ¬ Blank t := by
  unfold calls? at h
  dsimp only at h
  split_ifs at h with hempty
  · exact absurd h (by simp)
  obtain rfl := Option.some.inj h
  rw [List.isEmpty_iff] at hempty
  obtain ⟨call, hcall⟩ := List.exists_mem_of_ne_nil _ hempty
  obtain ⟨part, -, hpart⟩ := List.mem_filterMap.mp hcall
  obtain ⟨value, -, rfl⟩ := Option.map_eq_some_iff.mp hpart
  exact not_blank_join hcall (not_blank_of_mem (c := '(') (by simp) (by decide))

theorem not_blank_of_shadowOfMap? {b : Setting} {t : Text} (h : t ∈ shadowOfMap? b) : ¬ Blank t := by
  obtain ⟨values, -, rfl⟩ := Option.map_eq_some_iff.mp h
  dsimp only
  rw [blank_trimEnd_iff]
  have hunit : 'p' ∈ sideOrZero values "spread" ++ "px " := List.mem_append_right _ (by decide)
  exact not_blank_of_mem (List.mem_append_left _ (List.mem_append_right _ hunit)) (by decide)

theorem not_blankRead_transform? {b : Setting} (h : b.scalar? = none) : ¬ BlankRead (transform? b) := by
  rintro ⟨t, ht, hblank⟩
  cases b with
  | scalar t => cases h
  | map entries => exact not_blank_of_calls? ht hblank
  | _ => cases ht

theorem not_blankRead_filter? (b : Setting) : ¬ BlankRead (filter? b) := by
  rintro ⟨t, ht, hblank⟩
  cases b with
  | map entries => exact not_blank_of_calls? ht hblank
  | _ => cases ht

theorem not_blankRead_shadow? {b : Setting} (h : b.scalar? = none) : ¬ BlankRead (shadow? b) := by
  rintro ⟨t, ht, hblank⟩
  cases b with
  | scalar t => cases h
  | map entries => exact not_blank_of_shadowOfMap? ht hblank
  | _ => cases ht

/-- A text is taken as it stands, and nothing else makes a blank value. -/
theorem blankRead_bind_nonEmpty? {f : Setting → Option Text} (hscalar : ∀ t, f (.scalar t) = some t)
    (hother : ∀ {b}, b.scalar? = none → ¬ BlankRead (f b)) (key : Text) :
    BlankRead ((s.nonEmpty? key).bind f) ↔ s.BlankAt key := by
  unfold nonEmpty? BlankAt present?
  rcases Table.get? s key with _ | b
  · rfl
  · rw [Option.bind_some, ← Setting.blankRead_text?, Option.filter_some]
    cases b with
    | scalar t =>
      have htext : (Setting.scalar t).text? = if (Setting.scalar t).isEmpty then none else some t := rfl
      rw [htext]
      cases (Setting.scalar t).isEmpty with
      | false => simp [hscalar]
      | true => rfl
    | _ =>
      refine iff_of_false (fun h => ?_) blankRead_none
      split_ifs at h
      · exact hother rfl h
      · exact blankRead_none h

def effectKeys : List Text :=
  ["_transform", "_transformOrigin", "_transition", "_cssTransition", "_filter", "_backdropFilter",
    "_boxShadow", "_textShadow", "_objectFit", "_objectPosition", "_isolation", "_cursor",
    "_mixBlendMode", "_pointerEvents", "_scrollSnapType", "_scrollSnapAlign", "_scrollSnapStop"]

theorem hasBlank_effects : HasBlank (effects s) ↔ s.BlankAmong effectKeys := by
  have hfilter : ¬ BlankRead ((s.nonEmpty? "_cssFilters").bind filter?) := by
    rw [blankRead_bind_iff]
    exact fun ⟨b, _, hb⟩ => not_blankRead_filter? b hb
  rw [effects, hasBlank_append, hasBlank_append, hasBlank_append, hasBlank_append, hasBlank_append,
    hasBlank_ofTexts, hasBlank_ofTexts, hasBlank_ofTexts, hasBlank_ofValue, hasBlank_ofValue,
    hasBlank_ofValue, or_iff_left hfilter,
    blankRead_bind_nonEmpty? s (fun _ => rfl) not_blankRead_transform?,
    blankRead_bind_nonEmpty? s (fun _ => rfl) not_blankRead_shadow?, ← blankAmong_singleton,
    ← blankAmong_singleton, ← blankAmong_append, ← blankAmong_append, ← blankAmong_append,
    ← blankAmong_append]
  rfl

end Effects

end Group

end Restyle
