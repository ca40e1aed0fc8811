import Restyle.Group.Sides
import Restyle.Proofs.Declaration.FourSides

/-! # Sides from settings

Each side of a margin, a padding or an inset has the value of its own setting,
else that of the compound object, else what the compound text gives to it. The
declarations say so in as few words as they can: a whole compound object is the
shortest shorthand there is, and two equal sides of an axis share a declaration.
-/

namespace Restyle

open Text Declaration

namespace Group

def SideKeys.key (keys : SideKeys) : BoxSide → Text
  | .top => keys.top
  | .right => keys.right
  | .bottom => keys.bottom
  | .left => keys.left

namespace SideValues

def side? (v : SideValues) : BoxSide → Option Text
  | .top => v.top
  | .right => v.right
  | .bottom => v.bottom
  | .left => v.left

def compound? (s : Settings) (compoundKey : Option Text) : Option Setting :=
  compoundKey.bind (Table.get? s)

def ofObject? (compound : Option Setting) (side : BoxSide) : Option Text :=
  (compound.bind (·.get? side.name)).bind Setting.present?

/-- What a compound text gives to a side. -/
def ofText? (compound : Option Setting) (side : BoxSide) : Option Text :=
  ((compound.bind Setting.present?).bind fun t => BoxSide.expand? t.words).map (· side)

/-- Every value of a side is one token, and a compound text has one to four of them. -/
structure Tokens (s : Settings) (compoundKey : Option Text) (keys : SideKeys) : Prop where
  own : ∀ side, ∀ v ∈ s.present? (keys.key side), IsToken v
  object : ∀ side, ∀ v ∈ ofObject? (compound? s compoundKey) side, IsToken v
  text : ∀ t ∈ (compound? s compoundKey).bind Setting.present?,
    1 ≤ t.words.length ∧ t.words.length ≤ 4

instance (s : Settings) (compoundKey : Option Text) (keys : SideKeys) :
    Decidable (Tokens s compoundKey keys) :=
  decidable_of_iff ((∀ side, ∀ v ∈ s.present? (keys.key side), IsToken v) ∧
      (∀ side, ∀ v ∈ ofObject? (compound? s compoundKey) side, IsToken v) ∧
      ∀ t ∈ (compound? s compoundKey).bind Setting.present?,
        1 ≤ t.words.length ∧ t.words.length ≤ 4)
    ⟨fun h => ⟨h.1, h.2.1, h.2.2⟩, fun h => ⟨h.own, h.object, h.text⟩⟩

/-- The value of a side that is no part of a compound text. -/
def single? (s : Settings) (compoundKey : Option Text) (keys : SideKeys) (side : BoxSide) :
    Option Text :=
  s.present? (keys.key side) <|> ofObject? (compound? s compoundKey) side

/-- A compound object with all four sides, none of which has a setting of its own. -/
def Whole (s : Settings) (compoundKey : Option Text) (keys : SideKeys) : Prop :=
  ∀ side, (ofObject? (compound? s compoundKey) side).isSome ∧ s.present? (keys.key side) = none

variable {s : Settings} {compoundKey : Option Text} {keys : SideKeys} {v : SideValues}
  {property : Text} {side : BoxSide}

theorem direct_ofCompound (c : Setting) : (ofCompound c).direct = c.present? := by
  cases c with
  | scalar t =>
    rw [ofCompound, Setting.present?]
    split_ifs <;> rfl
  | _ => rfl

theorem side?_ofCompound (c : Setting) (side : BoxSide) :
    (ofCompound c).side? side = ofObject? (some c) side := by
  cases c with
  | map entries => cases side <;> rfl
  | scalar t =>
    rw [ofCompound]
    split_ifs <;> cases side <;> rfl
  | _ => cases side <;> rfl

theorem compound_ofCompound (c : Setting) :
    (ofCompound c).compound = true ↔ ∀ side, (ofObject? (some c) side).isSome := by
  cases c with
  | map entries =>
    rw [BoxSide.forall_iff]
    simp only [ofCompound, Bool.and_eq_true, and_assoc]
    rfl
  | scalar t =>
    have hnone : (ofCompound (.scalar t)).compound = false := by
      rw [ofCompound]
      split_ifs <;> rfl
    rw [hnone]
    exact iff_of_false Bool.false_ne_true fun h => absurd (h .top) Bool.false_ne_true
  | _ => exact iff_of_false Bool.false_ne_true fun h => absurd (h .top) Bool.false_ne_true

theorem direct_read (s : Settings) (compoundKey : Option Text) (keys : SideKeys) :
    (read s compoundKey keys).direct = (compound? s compoundKey).bind Setting.present? := by
  rw [read, ← compound?]
  cases compound? s compoundKey with
  | none => rfl
  | some c => exact direct_ofCompound c

theorem side?_read (s : Settings) (compoundKey : Option Text) (keys : SideKeys) (side : BoxSide) :
    (read s compoundKey keys).side? side = single? s compoundKey keys side := by
  have hcompound : (((compound? s compoundKey).map ofCompound).getD {}).side? side =
      ofObject? (compound? s compoundKey) side := by
    cases compound? s compoundKey with
    | none => cases side <;> rfl
    | some c => exact side?_ofCompound c side
  rw [single?, ← hcompound, compound?]
  cases side <;> rfl

theorem compound_read (s : Settings) (compoundKey : Option Text) (keys : SideKeys) :
    (read s compoundKey keys).compound = true ↔ Whole s compoundKey keys := by
  have hcompound : (((compound? s compoundKey).map ofCompound).getD {}).compound = true ↔
      ∀ side, (ofObject? (compound? s compoundKey) side).isSome := by
    cases compound? s compoundKey with
    | none => exact iff_of_false Bool.false_ne_true fun h => absurd (h .top) Bool.false_ne_true
    | some c => exact compound_ofCompound c
  have hown : (s.present? keys.top <|> s.present? keys.right <|> s.present? keys.bottom <|>
      s.present? keys.left) = none ↔ ∀ side, s.present? (keys.key side) = none := by
    rw [BoxSide.forall_iff]
    simp only [Option.orElse_eq_orElse, Option.orElse_eq_or, Option.or_eq_none_iff]
    rfl
  rw [read, ← compound?]
  dsimp only
  rw [Bool.and_eq_true, hcompound, Option.isNone_iff_eq_none]
  exact (and_congr_right fun _ => hown).trans forall_and.symm

theorem direct_eq_none (h : Whole s compoundKey keys) :
    (compound? s compoundKey).bind Setting.present? = none := by
  have htop := (h .top).1
  cases hc : compound? s compoundKey with
  | none => rfl
  | some c =>
    rw [hc] at htop
    cases c with
    | map entries => rfl
    | _ => exact absurd htop Bool.false_ne_true

section Axis

open BoxSide

def first : BoxSide.Axis → BoxSide
  | .block => .top
  | .inline => .right

def second : BoxSide.Axis → BoxSide
  | .block => .bottom
  | .inline => .left

def ofAxis (property : Text) (v : SideValues) (a : BoxSide.Axis) : List Declaration :=
  axis (property ++ a.suffix) (property ++ (first a).suffix, v.side? (first a))
    (property ++ (second a).suffix, v.side? (second a))

theorem declarations_of_not_whole (h : ¬ Whole s compoundKey keys) (property : Text) :
    (read s compoundKey keys).declarations property =
      ofValue property ((compound? s compoundKey).bind Setting.present?) ++
        (ofAxis property (read s compoundKey keys) .block ++
          ofAxis property (read s compoundKey keys) .inline) := by
  have hcompound : (read s compoundKey keys).compound = false := by
    rw [← Bool.not_eq_true, compound_read]
    exact h
  rw [declarations, hcompound, direct_read]
  rfl

theorem get?_axis (property : Text) (a : Axis) :
    (logical property).get? (property ++ a.suffix) = some (.axis a) := by
  rw [get?_logical]
  cases a <;> rfl

theorem get?_side (property : Text) (s : BoxSide) :
    (logical property).get? (property ++ s.suffix) = some (.side s) := by
  rw [get?_logical]
  cases s <;> rfl

theorem get?_all (property : Text) : (logical property).get? property = some .all := by
  have h := get?_logical property []
  rwa [List.append_nil] at h

theorem eq_first_or_second (a : BoxSide.Axis) (side : BoxSide) :
    side = a.start ∨ side = a.stop ↔ side = first a ∨ side = second a := by
  cases a with
  | block => rfl
  | inline => exact or_comm

theorem winner?_ofAxis (ht : ∀ side w, v.side? side = some w → IsToken w) (property : Text)
    (a : BoxSide.Axis) (side : BoxSide) : winner? (logical property) words (ofAxis property v a) side =
      if side = first a ∨ side = second a then v.side? side else none := by
  have hne : first a ≠ second a := by cases a <;> decide
  unfold ofAxis axis
  split_ifs with hsame hside hside
  · obtain ⟨w, hw⟩ := Option.isSome_iff_exists.mp hsame.1
    have hwside : v.side? side = some w := by
      rcases hside with rfl | rfl
      · exact hw
      · exact hsame.2.symm.trans hw
    rw [winner?_ofValue, hw, Option.bind_some, get?_axis, Option.bind_some, Reach.value?,
      (ht _ w hw).words_eq, Axis.value?, if_pos ((eq_first_or_second a side).mpr hside), hwside]
  · obtain ⟨w, hw⟩ := Option.isSome_iff_exists.mp hsame.1
    rw [winner?_ofValue, hw, Option.bind_some, get?_axis, Option.bind_some, Reach.value?,
      (ht _ w hw).words_eq, Axis.value?, if_neg (mt (eq_first_or_second a side).mp hside)]
  · rw [winner?_append, winner?_ofValue, winner?_ofValue, get?_side, get?_side]
    simp only [Option.bind_some, Reach.value?]
    rcases hside with rfl | rfl
    · simp [hne]
    · simp [hne.symm]
  · rw [winner?_append, winner?_ofValue, winner?_ofValue, get?_side, get?_side]
    rw [not_or] at hside
    simp [Reach.value?, hside]

theorem property_of_mem_ofValue {value : Option Text} {d : Declaration}
    (h : d ∈ ofValue property value) : d.property = property := by
  obtain ⟨w, -, rfl⟩ := Option.map_eq_some_iff.mp (Option.mem_toList.mp h)
  rfl

theorem exists_reach_of_mem_ofAxis {d : Declaration} {a : BoxSide.Axis} (h : d ∈ ofAxis property v a) :
    ∃ r, (logical property).get? d.property = some r ∧
      ∀ b, Reach.concerns b r = decide (b = a) := by
  have hside : ∀ side, side = first a ∨ side = second a →
      ∀ b, Reach.concerns b (.side side) = decide (b = a) := by
    intro side hside b
    rcases hside with rfl | rfl <;> cases a <;> cases b <;> rfl
  unfold ofAxis axis at h
  split_ifs at h
  · refine ⟨.axis a, ?_, fun b => rfl⟩
    rw [property_of_mem_ofValue h, get?_axis]
  · rcases List.mem_append.mp h with h | h
    · refine ⟨.side (first a), ?_, hside _ (Or.inl rfl)⟩
      rw [property_of_mem_ofValue h, get?_side]
    · refine ⟨.side (second a), ?_, hside _ (Or.inr rfl)⟩
      rw [property_of_mem_ofValue h, get?_side]

def concerns (property : Text) (a : BoxSide.Axis) (d : Declaration) : Bool :=
  ((logical property).get? d.property).any (Reach.concerns a)

theorem filter_ofAxis (property : Text) (v : SideValues) (a b : BoxSide.Axis) :
    (ofAxis property v a).filter (concerns property b) =
      if b = a then ofAxis property v a else [] := by
  have hconcerns : ∀ d ∈ ofAxis property v a, concerns property b d = decide (b = a) := by
    intro d hd
    obtain ⟨r, hr, hb⟩ := exists_reach_of_mem_ofAxis hd
    rw [concerns, hr, Option.any_some, hb]
  rw [List.filter_congr hconcerns]
  split_ifs with h
  · simp [h]
  · simp [h]

theorem filter_ofValue (property : Text) (value : Option Text) (b : BoxSide.Axis) :
    (ofValue property value).filter (concerns property b) = [] := by
  rw [List.filter_eq_nil_iff]
  intro d hd
  rw [concerns, property_of_mem_ofValue hd, get?_all]
  exact Bool.false_ne_true

theorem ofAxis_of_eq (property : Text) {a : BoxSide.Axis} {w : Text} (hstart : v.side? a.start = some w)
    (hstop : v.side? a.stop = some w) : ofAxis property v a = [⟨property ++ a.suffix, w⟩] := by
  have hfirst : v.side? (first a) = some w := by cases a <;> assumption
  have hsecond : v.side? (second a) = some w := by cases a <;> assumption
  rw [ofAxis, axis, hfirst, hsecond, if_pos ⟨rfl, rfl⟩]
  rfl

end Axis

section Main

open BoxSide

/-- A whole compound object is declared by one shorthand. -/
theorem exists_declarations_of_whole (h : Whole s compoundKey keys) (property : Text) :
    ∃ top right bottom left, (read s compoundKey keys).declarations property =
        [⟨property, quadValue top right bottom left⟩] ∧
      ∀ side, single? s compoundKey keys side = some (four top right bottom left side) := by
  have hside (side : BoxSide) : ∃ w, (read s compoundKey keys).side? side = some w := by
    rw [side?_read, single?, (h side).2]
    exact Option.isSome_iff_exists.mp (h side).1
  obtain ⟨top, ht⟩ := hside .top
  obtain ⟨right, hr⟩ := hside .right
  obtain ⟨bottom, hb⟩ := hside .bottom
  obtain ⟨left, hl⟩ := hside .left
  refine ⟨top, right, bottom, left, ?_, fun side => ?_⟩
  · have htop : (read s compoundKey keys).top = some top := ht
    have hright : (read s compoundKey keys).right = some right := hr
    have hbottom : (read s compoundKey keys).bottom = some bottom := hb
    have hleft : (read s compoundKey keys).left = some left := hl
    rw [declarations, direct_read, direct_eq_none h, (compound_read s compoundKey keys).mpr h, htop,
      hright, hbottom, hleft]
    rfl
  · rw [← side?_read]
    cases side <;> assumption

theorem Tokens.single (h : Tokens s compoundKey keys) {w : Text}
    (hw : single? s compoundKey keys side = some w) : IsToken w := by
  rw [single?, Option.orElse_eq_orElse, Option.orElse_eq_or, Option.or_eq_some_iff] at hw
  rcases hw with hw | ⟨-, hw⟩
  · exact h.own side w hw
  · exact h.object side w hw

theorem winner?_direct (property : Text) (c : Option Setting) (side : BoxSide) :
    winner? (logical property) words (ofValue property (c.bind Setting.present?)) side =
      ofText? c side := by
  rw [winner?_ofValue, get?_all, ofText?]
  cases c.bind Setting.present? <;> rfl

/-- Without a whole compound object each side has its own value, else that of the compound text. -/
theorem winner?_of_not_whole (h : Tokens s compoundKey keys) (hw : ¬ Whole s compoundKey keys)
    (property : Text) (side : BoxSide) :
    winner? (logical property) words ((read s compoundKey keys).declarations property) side =
      (single? s compoundKey keys side <|> ofText? (compound? s compoundKey) side) := by
  have htoken : ∀ side w, (read s compoundKey keys).side? side = some w → IsToken w := by
    intro side w hside
    rw [side?_read] at hside
    exact h.single hside
  rw [declarations_of_not_whole hw, winner?_append, winner?_direct,
    winner?_append, winner?_ofAxis htoken, winner?_ofAxis htoken, side?_read]
  cases side <;> simp [first, second]

theorem words_of_whole (h : Tokens s compoundKey keys) {top right bottom left : Text}
    (hsingle : ∀ side, single? s compoundKey keys side = some (four top right bottom left side)) :
    words (quadValue top right bottom left) = quadValues top right bottom left := by
  rw [quadValue_eq_join, words_join]
  intro t ht
  obtain ⟨side, rfl⟩ := exists_side_of_mem_quadValues ht
  exact h.single (hsingle side)

theorem winner?_of_whole (h : Tokens s compoundKey keys) (hw : Whole s compoundKey keys)
    (property : Text) (side : BoxSide) :
    winner? (logical property) words ((read s compoundKey keys).declarations property) side =
      (single? s compoundKey keys side <|> ofText? (compound? s compoundKey) side) := by
  obtain ⟨top, right, bottom, left, hds, hsingle⟩ := exists_declarations_of_whole hw property
  rw [hds, winner?_singleton, get?_all, hsingle, Option.bind_some, Reach.value?,
    words_of_whole h hsingle, expand?_quadValues]
  rfl

theorem isSome_get?_of_mem {d : Declaration}
    (h : d ∈ (read s compoundKey keys).declarations property) :
    ((logical property).get? d.property).isSome = true := by
  by_cases hw : Whole s compoundKey keys
  · obtain ⟨top, right, bottom, left, hds, -⟩ := exists_declarations_of_whole hw property
    obtain rfl := List.mem_singleton.mp (hds ▸ h)
    rw [get?_all]
    rfl
  · have hcompound : (read s compoundKey keys).compound = false := by
      rw [← Bool.not_eq_true, compound_read]
      exact hw
    rw [declarations_of_not_whole hw] at h
    rcases List.mem_append.mp h with h | h
    · rw [property_of_mem_ofValue h, get?_all]
      rfl
    · rcases List.mem_append.mp h with h | h
      · obtain ⟨r, hr, -⟩ := exists_reach_of_mem_ofAxis h
        exact Option.isSome_of_eq_some hr
      · obtain ⟨r, hr, -⟩ := exists_reach_of_mem_ofAxis h
        exact Option.isSome_of_eq_some hr

/-- The declarations give every side its own value, else that of the compound object, else what the
compound text gives to it, and nothing else. A whole compound object is one shorthand, and none with
the same meaning is shorter; else two equal sides of an axis have exactly one declaration. -/
theorem declarations_give_sides (h : Tokens s compoundKey keys) (property : Text) :
    let ds := (read s compoundKey keys).declarations property
    (∀ side, winner? (logical property) words ds side =
      (single? s compoundKey keys side <|> ofText? (compound? s compoundKey) side)) ∧
    (∀ d ∈ ds, ((logical property).get? d.property).isSome = true) ∧
    (Whole s compoundKey keys → ∃ value, ds = [⟨property, value⟩] ∧ value.words.length ≤ 4 ∧
      ∀ ws f, expand? ws = some f → (∀ side, single? s compoundKey keys side = some (f side)) →
        value.words.length ≤ ws.length) ∧
    (¬ Whole s compoundKey keys → ∀ a w, single? s compoundKey keys a.start = some w →
      single? s compoundKey keys a.stop = some w →
        ds.filter (concerns property a) = [⟨property ++ a.suffix, w⟩]) := by
  intro ds
  refine ⟨fun side => ?_, fun d hd => isSome_get?_of_mem hd, fun hw => ?_, fun hw a w hstart hstop => ?_⟩
  · by_cases hw : Whole s compoundKey keys
    · exact winner?_of_whole h hw property side
    · exact winner?_of_not_whole h hw property side
  · obtain ⟨top, right, bottom, left, hds, hsingle⟩ := exists_declarations_of_whole hw property
    refine ⟨_, hds, ?_, fun ws f hexpand hf => ?_⟩
    · rw [words_of_whole h hsingle]
      exact length_quadValues_le_four top right bottom left
    · have hfour : f = four top right bottom left := funext fun side =>
        Option.some.inj ((hf side).symm.trans (hsingle side))
      rw [words_of_whole h hsingle]
      exact length_quadValues_le (hexpand.trans (congrArg some hfour))
  · have hcompound : (read s compoundKey keys).compound = false := by
      rw [← Bool.not_eq_true, compound_read]
      exact hw
    have haxis := ofAxis_of_eq property ((side?_read s compoundKey keys _).trans hstart)
      ((side?_read s compoundKey keys _).trans hstop)
    have hds : ds = _ := declarations_of_not_whole hw property
    rw [hds, List.filter_append, List.filter_append, filter_ofValue, filter_ofAxis, filter_ofAxis,
      ← haxis]
    cases a <;> simp

/-- A compound text, two equal sides of one axis on their own, and none of the other. -/
theorem declarations_give_sides_overridden :
    let s : Settings := [("_margin", .scalar "1px auto"), ("_marginTop", .scalar "0"),
      ("_marginBottom", .scalar "0")]
    Tokens s (some "_margin") marginKeys ∧
      (read s (some "_margin") marginKeys).declarations "margin" =
        [⟨"margin", "1px auto"⟩, ⟨"margin-block", "0"⟩] ∧
      winner? (logical "margin") words
        ((read s (some "_margin") marginKeys).declarations "margin") .top = some "0" ∧
      winner? (logical "margin") words
        ((read s (some "_margin") marginKeys).declarations "margin") .left = some "auto" := by
  intro s
  have h : Tokens s (some "_margin") marginKeys := by decide
  have hgive := (declarations_give_sides h "margin").1
  exact ⟨h, by decide, (hgive .top).trans (by decide), (hgive .left).trans (by decide)⟩

end Main

end SideValues

end Group

end Restyle
