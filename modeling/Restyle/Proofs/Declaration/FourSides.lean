import Restyle.Declaration.Basic
import Restyle.Declaration.Quad
import Restyle.Proofs.Table
import Restyle.Proofs.Text.Words

/-! # Values of four sides

A box has four sides, or corners, from the top clockwise. A shorthand gives one
to four values to them, a declaration for an axis gives values to two opposite
sides, and a longhand gives one to a side. Of the declarations that set a side
the last one counts.
-/

namespace Restyle

open Text

/-- The sides of a box from the top clockwise, or its corners from the top left one. -/
inductive BoxSide where
  | top
  | right
  | bottom
  | left
  deriving DecidableEq, Repr

inductive BoxSide.Axis where
  | block
  | inline
  deriving DecidableEq, Repr

/-- The sides that a property sets. -/
inductive BoxSide.Reach where
  | all
  | axis (a : BoxSide.Axis)
  | side (s : BoxSide)
  deriving DecidableEq, Repr

namespace BoxSide

theorem forall_iff {P : BoxSide → Prop} : (∀ s, P s) ↔ P .top ∧ P .right ∧ P .bottom ∧ P .left := by
  constructor
  · exact fun h => ⟨h .top, h .right, h .bottom, h .left⟩
  · rintro ⟨ht, hr, hb, hl⟩ s
    cases s <;> assumption

instance {P : BoxSide → Prop} [DecidablePred P] : Decidable (∀ s, P s) :=
  decidable_of_iff' _ forall_iff

def four (top right bottom left : Text) : BoxSide → Text
  | .top => top
  | .right => right
  | .bottom => bottom
  | .left => left

/-- The name of a side, at the end of a property and as a field of an object. -/
def name : BoxSide → Text :=
  four "top" "right" "bottom" "left"

/-- What a shorthand of one to four values gives to each side. -/
def expand? : List Text → Option (BoxSide → Text)
  | [a] => some (four a a a a)
  | [a, b] => some (four a b a b)
  | [a, b, c] => some (four a b c b)
  | [a, b, c, d] => some (four a b c d)
  | _ => none

def suffix : BoxSide → Text
  | .top => "-block-start"
  | .right => "-inline-end"
  | .bottom => "-block-end"
  | .left => "-inline-start"

namespace Axis

def start : Axis → BoxSide
  | block => top
  | inline => left

def stop : Axis → BoxSide
  | block => bottom
  | inline => right

def suffix : Axis → Text
  | block => "-block"
  | inline => "-inline"

def value? (a : Axis) (values : List Text) (s : BoxSide) : Option Text :=
  match values with
  | [v] => if s = a.start ∨ s = a.stop then some v else none
  | [v, w] => if s = a.start then some v else if s = a.stop then some w else none
  | _ => none

end Axis

namespace Reach

/-- What a declaration with some reach gives to a side, `parts` being the values in a text. -/
def value? (parts : Text → List Text) (value : Text) (s : BoxSide) : Reach → Option Text
  | all => (expand? (parts value)).map (· s)
  | axis a => a.value? (parts value) s
  | side s' => if s = s' then some value else none

def concerns (a : Axis) : Reach → Bool
  | all => false
  | axis b => a = b
  | side s => s = a.start ∨ s = a.stop

end Reach

/-- What the logical properties of a shorthand set, given by what follows the shorthand's name. -/
def suffixes : Table Reach :=
  ([], .all) :: ([.block, .inline].map fun a => (a.suffix, .axis a)) ++
    [.top, .right, .bottom, .left].map fun s => (s.suffix, .side s)

def logical (property : Text) : Table Reach :=
  suffixes.map fun (suffix, reach) => (property ++ suffix, reach)

def values (names : Table Reach) (parts : Text → List Text) (ds : List Declaration) (s : BoxSide) :
    List Text :=
  ds.filterMap fun d => (names.get? d.property).bind (Reach.value? parts d.value s)

/-- The value of a side: of all declarations that set it the last one counts. -/
def winner? (names : Table Reach) (parts : Text → List Text) (ds : List Declaration) (s : BoxSide) :
    Option Text :=
  (values names parts ds s).getLast?

variable {names : Table Reach} {parts : Text → List Text} {ds es : List Declaration} {s : BoxSide}
  {top right bottom left : Text}

theorem winner?_append : winner? names parts (ds ++ es) s =
    (winner? names parts es s).or (winner? names parts ds s) := by
  unfold winner? values
  rw [List.filterMap_append, List.getLast?_append]

theorem winner?_singleton (d : Declaration) : winner? names parts [d] s =
    (names.get? d.property).bind (Reach.value? parts d.value s) := by
  unfold winner? values
  rw [List.filterMap_cons]
  cases (names.get? d.property).bind (Reach.value? parts d.value s) <;> rfl

theorem winner?_ofValue (property : Text) (value : Option Text) :
    winner? names parts (Declaration.ofValue property value) s =
      value.bind fun v => (names.get? property).bind (Reach.value? parts v s) := by
  cases value with
  | none => rfl
  | some v => exact winner?_singleton ⟨property, v⟩

theorem get?_logical (property : Text) (suffix : Text) :
    (logical property).get? (property ++ suffix) = suffixes.get? suffix := by
  unfold logical
  induction suffixes with
  | nil => rfl
  | cons e suffixes ih =>
    rw [List.map_cons, Table.get?_cons, Table.get?_cons, ih]
    simp only [List.append_cancel_left_eq]

section Quad

open Declaration

def quadValues (top right bottom left : Text) : List Text :=
  if top = right ∧ right = bottom ∧ bottom = left then [top]
  else if top = bottom ∧ right = left then [top, right]
  else if right = left then [top, right, bottom]
  else [top, right, bottom, left]

theorem quadValue_eq_join (top right bottom left : Text) :
    quadValue top right bottom left = join " " (quadValues top right bottom left) := by
  unfold quadValue quadValues
  split_ifs
  · exact (join_singleton " " top).symm
  · simp [join_cons_cons]
  · rfl
  · rfl

theorem expand?_quadValues (top right bottom left : Text) :
    expand? (quadValues top right bottom left) = some (four top right bottom left) := by
  unfold quadValues
  split_ifs with h₁ h₂ h₃
  · obtain ⟨rfl, rfl, rfl⟩ := h₁
    rfl
  · obtain ⟨rfl, rfl⟩ := h₂
    rfl
  · obtain rfl := h₃
    rfl
  · rfl

theorem exists_side_of_mem_quadValues {v : Text} (h : v ∈ quadValues top right bottom left) :
    ∃ s, v = four top right bottom left s := by
  have hmem : v ∈ [top, right, bottom, left] := by
    unfold quadValues at h
    split_ifs at h <;> simp only [List.mem_cons, List.not_mem_nil, or_false] at h ⊢ <;> tauto
  simp only [List.mem_cons, List.not_mem_nil, or_false] at hmem
  rcases hmem with rfl | rfl | rfl | rfl
  · exact ⟨.top, rfl⟩
  · exact ⟨.right, rfl⟩
  · exact ⟨.bottom, rfl⟩
  · exact ⟨.left, rfl⟩

theorem length_quadValues_le_four (top right bottom left : Text) :
    (quadValues top right bottom left).length ≤ 4 := by
  unfold quadValues
  split_ifs <;> simp

theorem four_inj {top' right' bottom' left' : Text} :
    four top right bottom left = four top' right' bottom' left' ↔
      top = top' ∧ right = right' ∧ bottom = bottom' ∧ left = left' := by
  constructor
  · intro h
    exact ⟨congrFun h .top, congrFun h .right, congrFun h .bottom, congrFun h .left⟩
  · rintro ⟨rfl, rfl, rfl, rfl⟩
    rfl

/-- No shorthand with the same meaning is shorter. -/
theorem length_quadValues_le {ws : List Text}
    (h : expand? ws = some (four top right bottom left)) :
    (quadValues top right bottom left).length ≤ ws.length := by
  match ws, h with
  | [a], h =>
    obtain ⟨rfl, rfl, rfl, rfl⟩ := four_inj.mp (Option.some.inj h)
    rw [quadValues, if_pos ⟨rfl, rfl, rfl⟩]
  | [a, b], h =>
    obtain ⟨rfl, rfl, rfl, rfl⟩ := four_inj.mp (Option.some.inj h)
    rw [quadValues, if_pos (⟨rfl, rfl⟩ : a = a ∧ b = b)]
    split_ifs <;> simp
  | [a, b, c], h =>
    obtain ⟨rfl, rfl, rfl, rfl⟩ := four_inj.mp (Option.some.inj h)
    rw [quadValues, if_pos (rfl : b = b)]
    split_ifs <;> simp
  | [a, b, c, d], _ => exact length_quadValues_le_four top right bottom left

end Quad

end BoxSide

end Restyle
