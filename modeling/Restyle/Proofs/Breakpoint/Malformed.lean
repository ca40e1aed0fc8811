import Mathlib.Algebra.Order.Field.Power
import Mathlib.Algebra.Order.Field.Rat
import Mathlib.Data.Set.Basic
import Mathlib.Tactic.Linarith
import Mathlib.Tactic.Positivity
import Restyle.Proofs.Breakpoint.Precedence
import Restyle.Proofs.Text.Letter

/-! # Malformed overrides

An override entry is well formed if it is an object whose key has a character
that counts and whose width denotes a finite number of at least one. Entries
that are not are passed over, except those whose width is a text for infinity or
for no number at all: they count with the greatest width there is.
-/

namespace Restyle

open Text

def Binary64.value? : Binary64 → Option ℚ
  | .finite negative m e => some ((if negative then -1 else 1) * (m * 2 ^ e))
  | _ => none

namespace Override

def keyText? : Json → Option Text
  | .string t => some t
  | .number n => some n.toText
  | _ => none

def real? : Json → Option Binary64
  | .number (.real x) => some x
  | .string t => Binary64.ofText? t.trim
  | _ => none

def widthValue? : Json → Option ℚ
  | .number (.integer n) => some n
  | j => (real? j).bind Binary64.value?

/-- A key with a letter, a digit, `_` or `-`. -/
def HasKey (j : Json) : Prop :=
  ∃ k t, j.get? "key" = some k ∧ keyText? k = some t ∧ ∃ c ∈ t, isNameChar c = true

/-- An object with a key and a finite width of at least one. -/
structure WellFormed (j : Json) : Prop where
  object : ∃ fields, j = .object fields
  key : HasKey j
  width : ∃ w x, j.get? "width" = some w ∧ widthValue? w = some x ∧ 1 ≤ x

/-- An object with a key and a width that is read as positive infinity or as no number. -/
structure Endless (j : Json) : Prop where
  key : HasKey j
  width : ∃ w x, j.get? "width" = some w ∧ real? w = some x ∧ (x = .infinite false ∨ x = .nan)

variable {j : Json} {o : Override} {x : Binary64}

theorem cleanKey_ne_nil_iff (t : Text) : Breakpoint.cleanKey t ≠ [] ↔ ∃ c ∈ t, isNameChar c = true := by
  simp [Breakpoint.cleanKey, lower, List.filter_eq_nil_iff, isNameChar_toLower]

theorem keyOf_ne_nil_iff (k : Json) :
    keyOf k ≠ [] ↔ ∃ t, keyText? k = some t ∧ ∃ c ∈ t, isNameChar c = true := by
  unfold keyOf keyText?
  split <;> simp [cleanKey_ne_nil_iff]

theorem hasKey_iff : HasKey j ↔ ((j.get? "key").map keyOf).getD [] ≠ [] := by
  rw [HasKey]
  rcases j.get? "key" with _ | k
  · simp
  · simp [keyOf_ne_nil_iff]

theorem wholePart_eq_zero_iff (m : Nat) (e : Int) :
    Binary64.wholePart m e = 0 ↔ (m : ℚ) * 2 ^ e < 1 := by
  cases e with
  | ofNat p =>
    have hvalue : (m : ℚ) * 2 ^ (Int.ofNat p) = ((m * 2 ^ p : Nat) : ℚ) := by simp
    rw [hvalue, Nat.cast_lt_one]
    simp [Binary64.wholePart, Binary64.magnitude, scaleRatio]
  | negSucc p =>
    have hpos : (0 : ℚ) < 2 ^ (p + 1) := by positivity
    have hmagnitude : Binary64.wholePart m (.negSucc p) = m / 2 ^ (p + 1) := by
      simp [Binary64.wholePart, Binary64.magnitude, scaleRatio]
    rw [hmagnitude, Nat.div_eq_zero_iff_lt (by positivity), zpow_negSucc, ← div_eq_mul_inv,
      div_lt_one hpos]
    exact_mod_cast Iff.rfl

theorem isSome_widthOfReal?_iff : (widthOfReal? x).isSome ↔
    (∃ v, x.value? = some v ∧ 1 ≤ v) ∨ x = .infinite false ∨ x = .nan := by
  cases x with
  | finite negative m e =>
    have hwhole := wholePart_eq_zero_iff m e
    have hnonneg : (0 : ℚ) ≤ m * 2 ^ e := by positivity
    cases negative with
    | false => simp [widthOfReal?, Binary64.value?, hwhole]
    | true =>
      have hneg : ¬ (1 : ℚ) ≤ -(m * 2 ^ e) := by linarith
      simp [widthOfReal?, Binary64.value?, hneg]
  | infinite negative => cases negative <;> simp [widthOfReal?, Binary64.value?]
  | nan => simp [widthOfReal?]

theorem isSome_widthOf?_iff (w : Json) : (widthOf? w).isSome ↔
    (∃ v, widthValue? w = some v ∧ 1 ≤ v) ∨
      ∃ x, real? w = some x ∧ (x = .infinite false ∨ x = .nan) := by
  have hreal : ∀ y : Option Binary64, (y.bind widthOfReal?).isSome ↔
      (∃ v, y.bind Binary64.value? = some v ∧ 1 ≤ v) ∨
        ∃ x, y = some x ∧ (x = .infinite false ∨ x = .nan) := by
    rintro (_ | x)
    · simp
    · simpa using isSome_widthOfReal?_iff
  cases w with
  | number n =>
    cases n with
    | integer n =>
      have hone : (1 : ℚ) ≤ n ↔ 1 ≤ n := by exact_mod_cast Iff.rfl
      simp [widthOf?, widthValue?, real?, hone]
    | real x => exact hreal (some x)
  | string t => exact hreal (Binary64.ofText? t.trim)
  | _ => simp [widthOf?, widthValue?, real?]

/-- The entries that count are the well formed ones and those of endless width. -/
theorem isSome_ofJson?_iff : (ofJson? j).isSome ↔ WellFormed j ∨ Endless j := by
  have hwidth : ((j.get? "width").bind widthOf?).isSome ↔
      ∃ w, j.get? "width" = some w ∧ (widthOf? w).isSome := by
    simp [Option.isSome_bind, Option.any_eq_true]
  have hboth : (ofJson? j).isSome ↔ HasKey j ∧ ((j.get? "width").bind widthOf?).isSome := by
    rw [hasKey_iff, ofJson?]
    cases (j.get? "width").bind widthOf? with
    | none => simp
    | some width => simp [Option.isSome_iff_exists]
  rw [hboth, hwidth]
  constructor
  · rintro ⟨hkey, w, hw, hsome⟩
    rcases (isSome_widthOf?_iff w).mp hsome with ⟨v, hv, hone⟩ | ⟨x, hx, hend⟩
    · exact .inl ⟨exists_object hw, hkey, w, v, hw, hv, hone⟩
    · exact .inr ⟨hkey, w, x, hw, hx, hend⟩
  · rintro (⟨-, hkey, w, v, hw, hv, hone⟩ | ⟨hkey, w, x, hw, hx, hend⟩)
    · exact ⟨hkey, w, hw, (isSome_widthOf?_iff w).mpr (.inl ⟨v, hv, hone⟩)⟩
    · exact ⟨hkey, w, hw, (isSome_widthOf?_iff w).mpr (.inr ⟨x, hx, hend⟩)⟩

theorem Endless.exists_ofJson? (h : Endless j) :
    ∃ o, ofJson? j = some o ∧ o.width = Breakpoint.maxWidth := by
  obtain ⟨o, ho⟩ := Option.isSome_iff_exists.mp (isSome_ofJson?_iff.mpr (.inr h))
  refine ⟨o, ho, ?_⟩
  obtain ⟨w, x, hw, hx, hend⟩ := h.width
  obtain ⟨w', hw', hwidth⟩ := (ofJson?_eq_some_iff.mp ho).width
  obtain rfl := Option.some.inj (hw.symm.trans hw')
  have hreal : widthOf? w = widthOfReal? x := by
    unfold real? at hx
    split at hx
    · rw [Option.some.inj hx, widthOf?]
    · rw [widthOf?, hx, Option.bind_some]
    · exact absurd hx (by simp)
  rw [hreal] at hwidth
  rcases hend with rfl | rfl <;> exact (Option.some.inj hwidth).symm

end Override

namespace Breakpoint

open Override

variable {entries : List (Json × Bool)} {malformed : Set Json} {j : Json}

/-- Entries that are marked to go are gone. -/
def unmarked (entries : List (Json × Bool)) : List Json :=
  (entries.filter fun e => !e.2).map Prod.fst

theorem usable_unmarked (h : ∀ e ∈ entries, e.2 = true → ofJson? e.1 = none) :
    usable (unmarked entries) = usable (entries.map Prod.fst) := by
  induction entries with
  | nil => rfl
  | cons e entries ih =>
    obtain ⟨he, hentries⟩ := List.forall_mem_cons.mp h
    obtain ⟨j, marked⟩ := e
    have hcons : ∀ js, usable (j :: js) = usable [j] ++ usable js := fun _ =>
      List.filterMap_append (l := [j])
    cases marked with
    | true =>
      have hnone : usable [j] = [] := by simp [usable, he rfl]
      exact (ih hentries).trans (by rw [List.map_cons, hcons, hnone, List.nil_append])
    | false =>
      calc usable (unmarked ((j, false) :: entries))
        _ = usable [j] ++ usable (unmarked entries) := hcons _
        _ = usable [j] ++ usable (entries.map Prod.fst) := by rw [ih hentries]
        _ = usable (j :: entries.map Prod.fst) := (hcons _).symm

theorem table_congr {entries entries' : List Json} (h : usable entries = usable entries') :
    table entries = table entries' := by
  rw [table_eq, table_eq, h]

/-- An override of the greatest width shows, for no builtin breakpoint is as wide. -/
theorem table_ne_of_maxWidth {o : Override} (ho : ofJson? j = some o) (hwidth : o.width = maxWidth) :
    table [j] ≠ table [] := by
  intro he
  have hunder : under (usable [j]) = override builtin o := by simp [under, usable, ho]
  have hget : ∀ k, (override builtin o).get? k = builtin.get? k := by
    intro k
    rw [← hunder, ← get?_table, he, get?_table]
    rfl
  have hwide : ∃ k b, (override builtin o).get? k = some b ∧ b.width = maxWidth := by
    rw [override_eq]
    cases o.movesDesktop with
    | true => exact ⟨desktop, _, Table.get?_set_self _ _ _, by simp [hwidth]⟩
    | false => exact ⟨o.key, _, Table.get?_set_self _ _ _, hwidth⟩
  obtain ⟨k, b, hb, hmax⟩ := hwide
  have hbuiltin : ∀ e ∈ builtin, e.2.width ≠ maxWidth := by decide
  exact hbuiltin _ (Table.mem_of_get? ((hget k).symm.trans hb)) hmax

/-- Malformed entries leave no trace in any list exactly if none of them is of endless width. -/
theorem table_unmarked_iff (h : ∀ j ∈ malformed, ¬ WellFormed j) :
    (∀ entries : List (Json × Bool), (∀ e ∈ entries, e.2 = true → e.1 ∈ malformed) →
      table (entries.map Prod.fst) = table (unmarked entries)) ↔ ∀ j ∈ malformed, ¬ Endless j := by
  constructor
  · intro hsame j hj hend
    obtain ⟨o, ho, hwidth⟩ := hend.exists_ofJson?
    exact table_ne_of_maxWidth ho hwidth (hsame [(j, true)] (by simpa using hj))
  · intro hend entries hentries
    refine table_congr (usable_unmarked fun e he hmark => ?_).symm
    have hmem := hentries e he hmark
    rw [← Option.not_isSome_iff_eq_none, isSome_ofJson?_iff]
    exact not_or_intro (h e.1 hmem) (hend e.1 hmem)

theorem not_wellFormed {w : Json} (hw : j.get? "width" = some w) (h : widthValue? w = none) :
    ¬ WellFormed j := by
  rintro ⟨-, -, w', x, hw', hx, -⟩
  obtain rfl := Option.some.inj (hw.symm.trans hw')
  exact absurd (h.symm.trans hx) (by simp)

def entry (key width : Text) : Json :=
  .object [("key", .string key), ("width", .string width)]

theorem table_unmarked_worded :
    (∀ j ∈ ({entry "phone" "wide"} : Set Json), ¬ WellFormed j) ∧
      table [entry "phone" "480", entry "phone" "wide", entry "phablet" "600"] =
        table [entry "phone" "480", entry "phablet" "600"] := by
  have hread : real? (.string "wide") = none := by decide
  have hmalformed : ∀ j ∈ ({entry "phone" "wide"} : Set Json), ¬ WellFormed j := by
    rintro j rfl
    exact not_wellFormed rfl (congrArg (Option.bind · Binary64.value?) hread)
  refine ⟨hmalformed, (table_unmarked_iff hmalformed).mpr ?_
    [(entry "phone" "480", false), (entry "phone" "wide", true), (entry "phablet" "600", false)]
    (by simp)⟩
  rintro j rfl ⟨-, w, x, hw, hx, -⟩
  obtain rfl : Json.string "wide" = w := Option.some.inj hw
  exact absurd (hread.symm.trans hx) (by simp)

/-- A width that is no number makes a breakpoint of the greatest width. -/
theorem table_nan : ¬ WellFormed (entry "wide" "NaN") ∧ table [entry "wide" "NaN"] ≠ table [] := by
  have hread : real? (.string "NaN") = some .nan := by decide
  exact ⟨not_wellFormed rfl (congrArg (Option.bind · Binary64.value?) hread), by decide⟩

end Breakpoint

end Restyle
