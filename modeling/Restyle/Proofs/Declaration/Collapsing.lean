import Restyle.Proofs.Declaration.Component
import Restyle.Proofs.Declaration.Longhand

/-! # Collapsing and the cascade

Four longhands of a family become their shorthand at the end of the list, which
takes the first value of each. So the sides of a box keep their values where the
first values of the last family that is collapsed are the ones that count, and
what is declared for other properties stays as it is.
-/

namespace Restyle

open Text

def Declaration.QuadFamily.side (family : Declaration.QuadFamily) (s : BoxSide) : Text :=
  match family.sides with
  | [top, right, bottom, left] => BoxSide.four top right bottom left s
  | _ => []

/-- Four sides or corners with the properties that set them, and how a shorthand's value is taken
apart. -/
structure Box where
  shorthand : Text
  names : Table BoxSide.Reach
  parts : Text → List Text

namespace Box

/-- The physical properties of a box, one for each side, and the property that sets all others. -/
def physical (name : BoxSide → Text) : Table BoxSide.Reach :=
  ("all", .all) :: [.top, .right, .bottom, .left].map fun s => (name s, .side s)

def inset : Box :=
  ⟨"inset", BoxSide.logical "inset" ++ physical BoxSide.name, components⟩

def padding : Box :=
  ⟨"padding", BoxSide.logical "padding" ++ physical ("padding-" ++ BoxSide.name ·), components⟩

def margin : Box :=
  ⟨"margin", BoxSide.logical "margin" ++ physical ("margin-" ++ BoxSide.name ·), components⟩

/-- The corners count from the top left one, which in left-to-right text is at both starts. -/
def borderRadius : Box :=
  let corners (top right bottom left : Text) : Table BoxSide.Reach :=
    physical fun s => "border-" ++ BoxSide.four top right bottom left s ++ "-radius"
  ⟨"border-radius", ("border-radius", .all) ::
    (corners "start-start" "start-end" "end-end" "end-start" ++
      corners "top-left" "top-right" "bottom-right" "bottom-left"), cornerValues⟩

/-- The value of a side when declarations are applied in order. -/
def value? (b : Box) (ds : List Declaration) (s : BoxSide) : Option Text :=
  BoxSide.winner? b.names b.parts (ds.map fun d => ⟨d.name, d.value⟩) s

end Box

def boxes : List Box :=
  [.inset, .padding, .margin, .borderRadius]

namespace Declaration

def QuadFamily.Complete (family : QuadFamily) (ds : List Declaration) : Prop :=
  ∀ s, (first? ds (family.side s)).isSome = true

instance (family : QuadFamily) (ds : List Declaration) : Decidable (family.Complete ds) :=
  inferInstanceAs (Decidable (∀ s : BoxSide, (first? ds (family.side s)).isSome = true))

def isLonghand (n : Text) : Bool :=
  quadFamilies.any fun family => family.sides.contains n

/-- The last of some families that are collapsed into the shorthand of a box. -/
def collapsedOf? (families : List QuadFamily) (b : Box) (ds : List Declaration) : Option QuadFamily :=
  (families.filter fun family => family.shorthand = b.shorthand ∧ family.Complete ds).getLast?

variable {family : QuadFamily} {families : List QuadFamily} {b : Box} {s : BoxSide} {t n : Text}
  {ds es : List Declaration}

namespace IsName

theorem isToken (hn : IsName n) : IsToken n :=
  ⟨hn.ne_nil, fun c hc => isBlank_of_isNameChar (hn.name c hc)⟩

theorem notMem (hn : IsName n) {c : Char} (hc : isNameChar c = false) : c ∉ n :=
  fun h => Bool.false_ne_true (hc.symm.trans (hn.name c h))

end IsName

theorem isName_of_mem_family (h : family ∈ quadFamilies) :
    ∀ n ∈ family.shorthand :: family.sides, IsName n := by
  have hall : ∀ family ∈ quadFamilies, ∀ n ∈ family.shorthand :: family.sides, IsName n := by
    decide +kernel
  exact hall family h

theorem sides_eq (h : family ∈ quadFamilies) : family.sides =
    [family.side .top, family.side .right, family.side .bottom, family.side .left] := by
  have hall : ∀ family ∈ quadFamilies, family.sides =
      [family.side .top, family.side .right, family.side .bottom, family.side .left] := by
    decide +kernel
  exact hall family h

theorem side_mem_sides (h : family ∈ quadFamilies) (s : BoxSide) : family.side s ∈ family.sides := by
  rw [sides_eq h]
  cases s <;> simp

namespace Spells

theorem foldl_withoutSide {ns : List Text} (hns : ∀ n ∈ ns, IsName n) (h : Spells t ds) :
    ∃ es, Spells (ns.foldl Declaration.withoutSide t) es ∧
      es.filter (·.name ∉ ns) = ds.filter (·.name ∉ ns) := by
  induction ns generalizing t ds with
  | nil => exact ⟨ds, h, rfl⟩
  | cons n ns ih =>
    obtain ⟨hn, hns⟩ := List.forall_mem_cons.mp hns
    obtain ⟨es, hes, hkeep⟩ := h.withoutSide hn
    obtain ⟨fs, hfs, hkeep'⟩ := ih hns hes
    refine ⟨fs, hfs, ?_⟩
    have hcons : ∀ ds : List Declaration, ds.filter (·.name ∉ n :: ns) =
        (ds.filter (·.name ≠ n)).filter (·.name ∉ ns) := by
      intro ds
      rw [List.filter_filter]
      refine List.filter_congr fun d _ => ?_
      simp [Bool.and_comm]
    have hswap : ∀ ds : List Declaration, ds.filter (·.name ∉ n :: ns) =
        (ds.filter (·.name ∉ ns)).filter (·.name ≠ n) := by
      intro ds
      rw [List.filter_filter]
      refine List.filter_congr fun d _ => ?_
      simp
    rw [hswap, hkeep', ← hswap, hcons, hkeep, ← hcons]

theorem remainder {ns : List Text} (hns : ∀ n ∈ ns, IsName n) (h : Spells t ds) :
    ∃ es, Spells (remainder t ns) es ∧ es.filter (·.name ∉ ns) = ds.filter (·.name ∉ ns) := by
  obtain ⟨es, hes, hkeep⟩ := h.foldl_withoutSide hns
  refine ⟨es, ?_, hkeep⟩
  have hrest := hes.squeezeBlanks.trimEnd.squeezeSemicolons.trim.dropSemicolons.trimStart
  rw [Declaration.remainder]
  split_ifs
  · exact hrest
  · have hend := hrest.append (.semicolon (.blank .nil))
    rwa [List.append_nil] at hend

end Spells

theorem mapM_sides (hfamily : family ∈ quadFamilies) (f : Text → Option Text) :
    family.sides.mapM f = (f (family.side .top)).bind fun top =>
      (f (family.side .right)).bind fun right => (f (family.side .bottom)).bind fun bottom =>
        (f (family.side .left)).map fun left => [top, right, bottom, left] := by
  rw [sides_eq hfamily]
  simp only [List.mapM_cons, List.mapM_nil]
  cases f (family.side .top) <;> cases f (family.side .right) <;> cases f (family.side .bottom) <;>
    cases f (family.side .left) <;> rfl

theorem collapseQuad_eq_self (hfamily : family ∈ quadFamilies) (h : Spells t ds)
    (hds : ¬ family.Complete ds) : collapseQuad family t = t := by
  obtain ⟨s, hs⟩ := not_forall.mp hds
  have hn : IsName (family.side s) :=
    isName_of_mem_family hfamily _ (List.mem_cons_of_mem _ (side_mem_sides hfamily s))
  have hfind : find? (sideDeclaration (family.side s)) t = none := by
    rcases h.find?_sideDeclaration hn with ⟨hnone, -⟩ | ⟨v, -, hsome, -⟩
    · exact hnone
    · exact absurd (by rw [hsome]; rfl) hs
  have hnone : family.sides.mapM (fun name => find? (sideDeclaration name) t) = none := by
    rw [mapM_sides hfamily]
    cases s <;> rw [hfind] <;> simp
  rw [collapseQuad, hnone]

theorem expand?_map (f : Text → Text) (vs : List Text) :
    BoxSide.expand? (vs.map f) = (BoxSide.expand? vs).map fun given s => f (given s) := by
  have hfour : ∀ top right bottom left : Text,
      (fun s => f (BoxSide.four top right bottom left s)) =
        BoxSide.four (f top) (f right) (f bottom) (f left) := by
    intro top right bottom left
    funext s
    cases s <;> rfl
  match vs with
  | [] => rfl
  | [a] => simp [BoxSide.expand?, hfour]
  | [a, b] => simp [BoxSide.expand?, hfour]
  | [a, b, c] => simp [BoxSide.expand?, hfour]
  | [a, b, c, d] => simp [BoxSide.expand?, hfour]
  | a :: b :: c :: d :: e :: vs => rfl

theorem Spells.exists_found (hfamily : family ∈ quadFamilies) (h : Spells t ds)
    (hds : family.Complete ds) : ∃ value : BoxSide → Text, ∀ s,
      find? (sideDeclaration (family.side s)) t = some (value s) ∧
      first? ds (family.side s) = some (spaced (value s)) ∧ ¬ Blank (value s) ∧
      ∀ c ∈ value s, c ∉ [';', '{', '}'] := by
  have hfound : ∀ s, ∃ v, find? (sideDeclaration (family.side s)) t = some v ∧
      first? ds (family.side s) = some (spaced v) ∧ ∀ c ∈ v, c ∉ [';', '{', '}'] := by
    intro s
    have hn := isName_of_mem_family hfamily _ (List.mem_cons_of_mem _ (side_mem_sides hfamily s))
    rcases h.find?_sideDeclaration hn with ⟨-, hnone⟩ | hsome
    · exact absurd (hds s) (by simp [hnone])
    · exact hsome
  choose value hfind hfirst hfree using hfound
  refine ⟨value, fun s => ⟨hfind s, hfirst s, ?_, hfree s⟩⟩
  obtain ⟨d, hd, hvalue⟩ := Option.map_eq_some_iff.mp (hfirst s)
  rw [← spaced_eq_nil_iff, ← hvalue]
  exact h.value_ne_nil d (List.mem_of_find?_eq_some hd)

theorem spells_shorthand (hfamily : family ∈ quadFamilies) {values : List Text} (hne : values ≠ [])
    (hvisible : ∀ v ∈ values, ¬ Blank v) (hfree : ∀ v ∈ values, ∀ c ∈ v, c ∉ [';', '{', '}']) :
    Spells (Declaration.text ⟨family.shorthand, join " " values⟩)
      [⟨family.shorthand, join " " (values.map spaced)⟩] := by
  have hshorthand := isName_of_mem_family hfamily _ List.mem_cons_self
  have hspaced : spaced (join " " values) = join " " (values.map spaced) := spaced_join hvisible
  have hblank : ¬ Blank (join " " values) := by
    rw [← spaced_eq_nil_iff, hspaced]
    obtain ⟨v, hv⟩ := List.exists_mem_of_ne_nil values hne
    exact join_ne_nil (List.mem_map_of_mem hv) (mt spaced_eq_nil_iff.mp (hvisible v hv))
  rw [← hspaced]
  refine Spells.text hshorthand.isToken (hshorthand.notMem (by decide)) hblank ?_
  intro c hc
  rcases List.mem_append.mp hc with hc | hc
  · have hname := hshorthand.name c hc
    simp only [List.mem_cons, List.not_mem_nil, or_false, not_or]
    refine ⟨?_, ?_, ?_⟩ <;> rintro rfl <;> exact absurd hname (by decide)
  · rcases mem_join hc with hc | ⟨v, hv, hc⟩
    · rw [List.mem_singleton.mp hc]
      decide
    · exact hfree v hv c hc

/-- A family whose longhands are all declared makes way for its shorthand at the end, which gives to
every side what its longhand is first declared as. -/
theorem Spells.collapseQuad (hfamily : family ∈ quadFamilies) (h : Spells t ds)
    (hds : family.Complete ds) : ∃ es values given,
      Spells (collapseQuad family t) (es ++ [⟨family.shorthand, join " " values⟩]) ∧
      es.filter (·.name ∉ family.sides) = ds.filter (·.name ∉ family.sides) ∧
      BoxSide.expand? values = some given ∧ (∀ v ∈ values, ∃ s, v = given s) ∧
      ∀ s, first? ds (family.side s) = some (given s) := by
  obtain ⟨value, hvalue⟩ := h.exists_found hfamily hds
  have hfour : BoxSide.four (value .top) (value .right) (value .bottom) (value .left) = value := by
    funext s
    cases s <;> rfl
  let values := BoxSide.quadValues (value .top) (value .right) (value .bottom) (value .left)
  have hvalues : ∀ v ∈ values, ∃ s, v = value s := by
    intro v hv
    obtain ⟨s, hs⟩ := BoxSide.exists_side_of_mem_quadValues hv
    exact ⟨s, by rw [hs, hfour]⟩
  have hexpand : BoxSide.expand? values = some value := by
    rw [BoxSide.expand?_quadValues, hfour]
  obtain ⟨es, hes, hkeep⟩ := h.remainder fun n hn =>
    isName_of_mem_family hfamily n (List.mem_cons_of_mem _ hn)
  refine ⟨es, values.map spaced, fun s => spaced (value s), ?_, hkeep, ?_, ?_, fun s => (hvalue s).2.1⟩
  · have hne : values ≠ [] := fun hnil => by simp [hnil, BoxSide.expand?] at hexpand
    have htext : Spells (Declaration.text ⟨family.shorthand, join " " values⟩)
        [⟨family.shorthand, join " " (values.map spaced)⟩] := by
      refine spells_shorthand hfamily hne (fun v hv => ?_) fun v hv => ?_ <;>
        obtain ⟨s, rfl⟩ := hvalues v hv
      · exact (hvalue s).2.2.1
      · exact (hvalue s).2.2.2
    have hcollapse : Declaration.collapseQuad family t = Text.trim (Declaration.remainder t family.sides ++
        ([' '] ++ Declaration.text ⟨family.shorthand, join " " values⟩)) := by
      rw [Declaration.collapseQuad, mapM_sides hfamily]
      simp only [(hvalue _).1, Option.bind_some, Option.map_some, BoxSide.quadValue_eq_join]
      simp [Declaration.text, values]
    rw [hcollapse]
    exact (hes.append (htext.blank_append (by decide))).trim
  · rw [expand?_map, hexpand]
    rfl
  · intro v hv
    obtain ⟨w, hw, rfl⟩ := List.mem_map.mp hv
    obtain ⟨s, rfl⟩ := hvalues w hw
    exact ⟨s, rfl⟩

/-- In a list that starts with single components for the longhands that are collapsed. -/
def StartsSingle (b : Box) (ds : List Declaration) : Prop :=
  ∀ family ∈ quadFamilies, family.shorthand = b.shorthand → family.Complete ds →
    ∀ s, ∀ v ∈ first? ds (family.side s), IsComponent v

instance (b : Box) (ds : List Declaration) : Decidable (StartsSingle b ds) :=
  inferInstanceAs (Decidable (∀ family ∈ quadFamilies, family.shorthand = b.shorthand →
    family.Complete ds → ∀ s : BoxSide, ∀ v ∈ first? ds (family.side s), IsComponent v))

def familyNames (families : List QuadFamily) : List Text :=
  families.flatMap fun family => family.shorthand :: family.sides

/-- What collapsing some families makes of a list of declarations. -/
structure Collapsed (families : List QuadFamily) (ds es : List Declaration) : Prop where
  apart : es.filter (·.name ∉ familyNames families) = ds.filter (·.name ∉ familyNames families)
  others : ∃ added, es.filter (!isLonghand ·.name) = ds.filter (!isLonghand ·.name) ++ added ∧
    ∀ d ∈ added, ∃ family ∈ families, d.property = family.shorthand
  value : ∀ b ∈ boxes, StartsSingle b ds → ∀ s, b.value? es s =
    (collapsedOf? families b ds).elim (b.value? ds s) fun family => first? ds (family.side s)

section Families

theorem filter_of_imp {p q : Declaration → Bool} (hqp : ∀ d, q d = true → p d = true)
    (h : es.filter p = ds.filter p) : es.filter q = ds.filter q := by
  have hand : ∀ ds : List Declaration, ds.filter q = (ds.filter p).filter q := by
    intro ds
    rw [List.filter_filter]
    refine List.filter_congr fun d _ => ?_
    cases hq : q d with
    | true => rw [hqp d hq]; rfl
    | false => rfl
  rw [hand es, h, ← hand]

theorem first?_of_filter {ns : List Text} (hn : n ∉ ns)
    (h : es.filter (·.name ∉ ns) = ds.filter (·.name ∉ ns)) : first? es n = first? ds n := by
  have hfilter : ∀ ds : List Declaration, first? (ds.filter (·.name ∉ ns)) n = first? ds n := by
    intro ds
    rw [first?, first?, List.find?_filter]
    congr 2
    funext d
    by_cases hd : d.name = n
    · simp [hd, hn]
    · simp [hd]
  rw [← hfilter es, h, hfilter]

theorem Box.value?_of_filter {ns : List Text} (hns : ∀ n ∈ ns, b.names.get? n = none)
    (h : es.filter (·.name ∉ ns) = ds.filter (·.name ∉ ns)) (s : BoxSide) :
    b.value? es s = b.value? ds s := by
  have hfilter : ∀ ds : List Declaration, b.value? (ds.filter (·.name ∉ ns)) s = b.value? ds s := by
    intro ds
    unfold Box.value? BoxSide.winner? BoxSide.values
    rw [List.filterMap_map, List.filterMap_map, List.filterMap_filter]
    congr 1
    refine List.filterMap_congr fun d _ => ?_
    by_cases hd : d.name ∈ ns
    · simp [hd, hns d.name hd]
    · simp [hd]
  rw [← hfilter es, h, hfilter]

theorem Box.get?_shorthand (hb : b ∈ boxes) : b.names.get? b.shorthand = some .all := by
  have hall : ∀ b ∈ boxes, b.names.get? b.shorthand = some .all := by decide +kernel
  exact hall b hb

theorem Box.get?_eq_none (hb : b ∈ boxes) (hfamily : family ∈ quadFamilies)
    (h : family.shorthand ≠ b.shorthand) :
    ∀ n ∈ family.shorthand :: family.sides, b.names.get? n = none := by
  have hall : ∀ b ∈ boxes, ∀ family ∈ quadFamilies, family.shorthand ≠ b.shorthand →
      ∀ n ∈ family.shorthand :: family.sides, b.names.get? n = none := by
    decide +kernel
  exact hall b hb family hfamily h

theorem Box.parts_join (hb : b ∈ boxes) {vs : List Text} (hvs : ∀ v ∈ vs, IsComponent v) :
    b.parts (join " " vs) = vs := by
  simp only [boxes, List.mem_cons, List.not_mem_nil, or_false] at hb
  rcases hb with rfl | rfl | rfl | rfl
  · exact components_join hvs
  · exact components_join hvs
  · exact components_join hvs
  · exact cornerValues_join hvs

theorem isLonghand_of_mem (hfamily : family ∈ quadFamilies) (hn : n ∈ family.sides) :
    isLonghand n = true :=
  List.any_eq_true.mpr ⟨family, hfamily, List.contains_iff_mem.mpr hn⟩

theorem isLonghand_shorthand (hfamily : family ∈ quadFamilies) :
    isLonghand family.shorthand = false := by
  have hall : ∀ family ∈ quadFamilies, isLonghand family.shorthand = false := by decide +kernel
  exact hall family hfamily

theorem collapsedOf?_append (families : List QuadFamily) (family : QuadFamily) (b : Box)
    (ds : List Declaration) : collapsedOf? (families ++ [family]) b ds =
      if family.shorthand = b.shorthand ∧ family.Complete ds then some family
      else collapsedOf? families b ds := by
  unfold collapsedOf?
  rw [List.filter_append]
  split_ifs with h
  · rw [List.filter_cons_of_pos (by simpa using h), List.filter_nil, List.getLast?_concat]
  · rw [List.filter_cons_of_neg (by simpa using h), List.filter_nil, List.append_nil]

theorem pairwise_quadFamilies : quadFamilies.Pairwise fun family later =>
    ∀ n ∈ later.sides, n ∉ family.shorthand :: family.sides := by
  decide +kernel

/-- What a shorthand at the end of a list makes of the values of its box. -/
theorem Box.value?_append_shorthand (hb : b ∈ boxes) (hfamily : family ∈ quadFamilies)
    (h : family.shorthand = b.shorthand) {values : List Text} {given : BoxSide → Text}
    (hexpand : BoxSide.expand? values = some given) (hvalues : ∀ v ∈ values, IsComponent v)
    (es : List Declaration) (s : BoxSide) :
    b.value? (es ++ [⟨family.shorthand, join " " values⟩]) s = some (given s) := by
  have hname : (⟨family.shorthand, join " " values⟩ : Declaration).name = b.shorthand := by
    rw [← h]
    exact (isName_of_mem_family hfamily _ List.mem_cons_self).folded
  rw [Box.value?, List.map_append, BoxSide.winner?_append, List.map_singleton,
    BoxSide.winner?_singleton, hname, Box.get?_shorthand hb, Option.bind_some, BoxSide.Reach.value?,
    Box.parts_join hb hvalues, hexpand]
  rfl

theorem filter_append_shorthand (hfamily : family ∈ quadFamilies) {ns : List Text}
    (hns : family.shorthand ∈ ns) (es : List Declaration) (value : Text) :
    (es ++ [Declaration.mk family.shorthand value]).filter (·.name ∉ ns) =
      es.filter (·.name ∉ ns) := by
  have hname : (⟨family.shorthand, value⟩ : Declaration).name = family.shorthand :=
    (isName_of_mem_family hfamily _ List.mem_cons_self).folded
  rw [List.filter_append, List.filter_cons_of_neg, List.filter_nil, List.append_nil]
  rw [hname]
  simpa using hns

theorem mem_familyNames_append : n ∈ familyNames (families ++ [family]) ↔
    n ∈ familyNames families ∨ n ∈ family.shorthand :: family.sides := by
  simp [familyNames]

namespace Collapsed

theorem nil (ds : List Declaration) : Collapsed [] ds ds :=
  ⟨rfl, ⟨[], (List.append_nil _).symm, by simp⟩, fun _ _ _ _ => rfl⟩

theorem apart_append (h : Collapsed families ds es) (family : QuadFamily) :
    es.filter (·.name ∉ familyNames (families ++ [family])) =
      ds.filter (·.name ∉ familyNames (families ++ [family])) := by
  refine filter_of_imp (fun d hd => ?_) h.apart
  simp only [decide_eq_true_eq, mem_familyNames_append, not_or] at hd ⊢
  exact hd.1

theorem append_of_incomplete (h : Collapsed families ds es) (hds : ¬ family.Complete ds) :
    Collapsed (families ++ [family]) ds es where
  apart := h.apart_append family
  others := by
    obtain ⟨added, hadded, hfrom⟩ := h.others
    refine ⟨added, hadded, fun d hd => ?_⟩
    obtain ⟨family', hmem, he⟩ := hfrom d hd
    exact ⟨family', List.mem_append_left _ hmem, he⟩
  value b hb hsingle s := by
    rw [collapsedOf?_append, if_neg fun hc => hds hc.2, h.value b hb hsingle]

theorem append_shorthand (h : Collapsed families ds es) (hfamily : family ∈ quadFamilies)
    (hds : family.Complete ds) {es' : List Declaration} {values : List Text}
    {given : BoxSide → Text}
    (hkeep : es'.filter (·.name ∉ family.sides) = es.filter (·.name ∉ family.sides))
    (hexpand : BoxSide.expand? values = some given) (hvalues : ∀ v ∈ values, ∃ s, v = given s)
    (hgiven : ∀ s, first? ds (family.side s) = some (given s)) :
    Collapsed (families ++ [family]) ds (es' ++ [⟨family.shorthand, join " " values⟩]) where
  apart := by
    rw [filter_append_shorthand hfamily (mem_familyNames_append.mpr (Or.inr List.mem_cons_self)),
      ← h.apart_append family]
    refine filter_of_imp (fun d hd => ?_) hkeep
    simp only [decide_eq_true_eq, mem_familyNames_append, not_or, List.mem_cons] at hd ⊢
    exact hd.2.2
  others := by
    obtain ⟨added, hadded, hfrom⟩ := h.others
    have hothers : es'.filter (!isLonghand ·.name) = es.filter (!isLonghand ·.name) := by
      refine filter_of_imp (fun d hd => ?_) hkeep
      simp only [Bool.not_eq_true', decide_eq_true_eq] at hd ⊢
      exact fun hmem => Bool.false_ne_true (hd.symm.trans (isLonghand_of_mem hfamily hmem))
    have hshorthand : (⟨family.shorthand, join " " values⟩ : Declaration).name = family.shorthand :=
      (isName_of_mem_family hfamily _ List.mem_cons_self).folded
    refine ⟨added ++ [⟨family.shorthand, join " " values⟩], ?_, ?_⟩
    · rw [List.filter_append, hothers, hadded, List.append_assoc, List.filter_cons_of_pos,
        List.filter_nil]
      rw [hshorthand, isLonghand_shorthand hfamily]
      rfl
    · intro d hd
      rcases List.mem_append.mp hd with hd | hd
      · obtain ⟨family', hmem, he⟩ := hfrom d hd
        exact ⟨family', List.mem_append_left _ hmem, he⟩
      · exact ⟨family, by simp, by rw [List.mem_singleton.mp hd]⟩
  value b hb hsingle s := by
    rw [collapsedOf?_append]
    by_cases hbox : family.shorthand = b.shorthand
    · have hcomponents : ∀ v ∈ values, IsComponent v := by
        intro v hv
        obtain ⟨s, rfl⟩ := hvalues v hv
        exact hsingle family hfamily hbox hds s _ (hgiven s)
      rw [if_pos ⟨hbox, hds⟩, Box.value?_append_shorthand hb hfamily hbox hexpand hcomponents,
        Option.elim_some, hgiven]
    · have hsame : (es' ++ [Declaration.mk family.shorthand (join " " values)]).filter
          (·.name ∉ family.shorthand :: family.sides) =
            es.filter (·.name ∉ family.shorthand :: family.sides) := by
        rw [filter_append_shorthand hfamily List.mem_cons_self]
        refine filter_of_imp (fun d hd => ?_) hkeep
        simp only [decide_eq_true_eq, List.mem_cons, not_or] at hd ⊢
        exact hd.2
      rw [if_neg fun hc => hbox hc.1,
        Box.value?_of_filter (Box.get?_eq_none hb hfamily hbox) hsame, h.value b hb hsingle]

theorem step (h : Collapsed families ds es) (hfamily : family ∈ quadFamilies)
    (hapart : ∀ n ∈ family.sides, n ∉ familyNames families) (hes : Spells t es) :
    ∃ es', Spells (collapseQuad family t) es' ∧ Collapsed (families ++ [family]) ds es' := by
  have hfirst : ∀ s, first? es (family.side s) = first? ds (family.side s) := fun s =>
    first?_of_filter (hapart _ (side_mem_sides hfamily s)) h.apart
  have hcomplete : family.Complete es ↔ family.Complete ds :=
    forall_congr' fun s => by rw [hfirst]
  by_cases hds : family.Complete ds
  · obtain ⟨es', values, given, hspells, hkeep, hexpand, hvalues, hgiven⟩ :=
      hes.collapseQuad hfamily (hcomplete.mpr hds)
    refine ⟨_, hspells, h.append_shorthand hfamily hds hkeep hexpand hvalues fun s => ?_⟩
    rw [← hfirst, hgiven]
  · rw [collapseQuad_eq_self hfamily hes (mt hcomplete.mp hds)]
    exact ⟨es, hes, h.append_of_incomplete hds⟩

end Collapsed

theorem Spells.foldl_collapseQuad (hfamilies : ∀ family ∈ families, family ∈ quadFamilies)
    (hpair : families.Pairwise fun family later =>
      ∀ n ∈ later.sides, n ∉ family.shorthand :: family.sides)
    (h : Spells t ds) : ∃ es, Spells (families.foldl (fun t family => Declaration.collapseQuad family t) t) es ∧
      Collapsed families ds es := by
  induction families using List.reverseRecOn with
  | nil =>
    exact ⟨ds, h, .nil ds⟩
  | append_singleton families family ih =>
    obtain ⟨hpair, -, hlast⟩ := List.pairwise_append.mp hpair
    obtain ⟨es, hes, hcollapsed⟩ :=
      ih (fun family hmem => hfamilies family (List.mem_append_left _ hmem)) hpair
    rw [List.foldl_append]
    refine hcollapsed.step (hfamilies family (by simp)) (fun n hn hmem => ?_) hes
    obtain ⟨earlier, hearlier, hmem⟩ := List.mem_flatMap.mp hmem
    exact hlast earlier hearlier family (List.mem_singleton_self family) n hn hmem

end Families

/-- Collapsing the families of a list keeps all declarations but longhands in order and puts shorthands
behind them. The sides of a box keep their values exactly if those are what the longhands of the last
family that is collapsed into its shorthand are first declared as. -/
theorem collapseQuads_keeps_values_iff {css : Text} (h : list? css = some ds) :
    ∃ es added, list? (collapseQuads css) = some es ∧
      es.filter (!isLonghand ·.name) = ds.filter (!isLonghand ·.name) ++ added ∧
      (∀ d ∈ added, ∃ family ∈ quadFamilies, d.property = family.shorthand) ∧
      ∀ b ∈ boxes, StartsSingle b ds → ((∀ s, b.value? es s = b.value? ds s) ↔
        ∀ family ∈ collapsedOf? quadFamilies b ds, ∀ s,
          b.value? ds s = first? ds (family.side s)) := by
  obtain ⟨es, hes, hcollapsed⟩ := (list?_eq_some_iff.mp h).foldl_collapseQuad
    (fun _ hmem => hmem) pairwise_quadFamilies
  obtain ⟨added, hadded, hfrom⟩ := hcollapsed.others
  refine ⟨es, added, list?_eq_some_iff.mpr hes, hadded, hfrom, fun b hb hsingle => ?_⟩
  have hvalue := hcollapsed.value b hb hsingle
  cases hlast : collapsedOf? quadFamilies b ds with
  | none =>
    rw [hlast] at hvalue
    exact iff_of_true hvalue (by simp)
  | some family =>
    rw [hlast] at hvalue
    simp only [Option.mem_def, Option.some.injEq, forall_eq', hvalue, Option.elim_some]
    exact forall_congr' fun s => eq_comm

def fourMargins : Text :=
  "margin: 5px; color: red; margin-block-start: 1px; Margin-Inline-End : calc(1px +  1px);; " ++
    "margin-inline-start: 3px; margin-block-end: 1px; --gap: 2px 4px;\n"

def fourMarginsDeclarations : List Declaration :=
  [⟨"margin", "5px"⟩, ⟨"color", "red"⟩, ⟨"margin-block-start", "1px"⟩,
    ⟨"Margin-Inline-End", "calc(1px + 1px)"⟩, ⟨"margin-inline-start", "3px"⟩,
    ⟨"margin-block-end", "1px"⟩, ⟨"--gap", "2px 4px"⟩]

theorem collapseQuads_keeps_values_fourMargins : list? fourMargins = some fourMarginsDeclarations ∧
    ∃ es, list? (collapseQuads fourMargins) = some es ∧
      (∃ added, es.filter (!isLonghand ·.name) =
        [⟨"margin", "5px"⟩, ⟨"color", "red"⟩, ⟨"--gap", "2px 4px"⟩] ++ added) ∧
      ∀ b ∈ boxes, ∀ s, b.value? es s = b.value? fourMarginsDeclarations s := by
  have h : list? fourMargins = some fourMarginsDeclarations := by decide +kernel
  obtain ⟨es, added, hes, hothers, -, hvalues⟩ := collapseQuads_keeps_values_iff h
  refine ⟨h, es, hes, ⟨added, hothers⟩, fun b hb => (hvalues b hb ?_).mpr ?_⟩
  · have hsingle : ∀ b ∈ boxes, StartsSingle b fourMarginsDeclarations := by decide +kernel
    exact hsingle b hb
  · have hfirst : ∀ b ∈ boxes, ∀ family ∈ collapsedOf? quadFamilies b fourMarginsDeclarations,
        ∀ s, b.value? fourMarginsDeclarations s = first? fourMarginsDeclarations (family.side s) := by
      decide +kernel
    exact hfirst b hb

/-- Of two values for a side the first one is kept where the second one counts. -/
theorem collapseQuads_keeps_first_value :
    let css : Text := "margin-block-start: 1px; margin-inline-end: 1px; margin-block-end: 1px; " ++
      "margin-inline-start: 1px; margin-block-start: 2px;"
    (list? css).bind (Box.margin.value? · .top) = some "2px".toList ∧
      collapseQuads css = "margin: 1px;".toList ∧
      (list? (collapseQuads css)).bind (Box.margin.value? · .top) = some "1px".toList := by
  decide +kernel

end Declaration

end Restyle
