import Restyle.Proofs.Declaration.FourSides
import Restyle.Proofs.Stylesheet.Reading

/-! # Components of values

The components of a value are what stands between the white space outside of its
parentheses. Where corners are rounded, a slash outside of parentheses parts the
components for one direction from those for the other.
-/

namespace Restyle

open Text

def splitOutside (p : Char → Bool) : Nat → Text → List Text
  | _, [] => [[]]
  | depth, c :: t =>
    if depth = 0 ∧ p c then [] :: splitOutside p 0 t
    else match splitOutside p (parensBehind depth [c]) t with
      | [] => [[c]]
      | w :: ws => (c :: w) :: ws

def isClosed (p : Char → Bool) : Nat → Text → Bool
  | depth, [] => depth = 0
  | depth, c :: t => !(depth = 0 && p c) && isClosed p (parensBehind depth [c]) t

/-- A value of one component, without a slash outside of parentheses. -/
structure IsComponent (v : Text) : Prop where
  ne_nil : v ≠ []
  closed : isClosed (fun c => isBlank c || c == '/') 0 v = true

instance (v : Text) : Decidable (IsComponent v) :=
  decidable_of_iff (v ≠ [] ∧ isClosed (fun c => isBlank c || c == '/') 0 v = true)
    ⟨fun h => ⟨h.1, h.2⟩, fun h => ⟨h.1, h.2⟩⟩

def components (v : Text) : List Text :=
  (splitOutside isBlank 0 v).filter (!·.isEmpty)

/-- The values for four corners, each with one length or one for either direction. -/
def cornerValues (v : Text) : List Text :=
  match splitOutside (· == '/') 0 v with
  | [v] => components v
  | [v, w] => match BoxSide.expand? (components v), BoxSide.expand? (components w) with
    | some f, some g => [.top, .right, .bottom, .left].map fun s : BoxSide =>
      if f s = g s then f s else f s ++ " " ++ g s
    | _, _ => []
  | _ => []

variable {p q : Char → Bool} {depth : Nat} {c : Char} {t u v : Text} {vs : List Text}

theorem isClosed_cons : isClosed p depth (c :: t) = true ↔
    ¬ (depth = 0 ∧ p c = true) ∧ isClosed p (parensBehind depth [c]) t = true := by
  rw [isClosed, Bool.and_eq_true, Bool.not_eq_true', Bool.and_eq_false_iff, not_and_or]
  simp

theorem isClosed_mono (hpq : ∀ c, q c = true → p c = true) (h : isClosed p depth t = true) :
    isClosed q depth t = true := by
  induction t generalizing depth with
  | nil => exact h
  | cons c t ih =>
    obtain ⟨hc, ht⟩ := isClosed_cons.mp h
    exact isClosed_cons.mpr ⟨fun hq => hc ⟨hq.1, hpq c hq.2⟩, ih ht⟩

theorem isClosed_append (ht : isClosed p depth t = true) (hu : isClosed p 0 u = true) :
    isClosed p depth (t ++ u) = true := by
  induction t generalizing depth with
  | nil =>
    obtain rfl : depth = 0 := by simpa [isClosed] using ht
    exact hu
  | cons c t ih =>
    obtain ⟨hc, ht⟩ := isClosed_cons.mp ht
    exact isClosed_cons.mpr ⟨hc, ih ht⟩

theorem splitOutside_of_isClosed (h : isClosed p depth t = true) : splitOutside p depth t = [t] := by
  induction t generalizing depth with
  | nil => rfl
  | cons c t ih =>
    obtain ⟨hc, ht⟩ := isClosed_cons.mp h
    rw [splitOutside, if_neg hc, ih ht]

theorem splitOutside_append (h : isClosed p depth t = true) (hc : p c = true) (u : Text) :
    splitOutside p depth (t ++ c :: u) = t :: splitOutside p 0 u := by
  induction t generalizing depth with
  | nil =>
    obtain rfl : depth = 0 := by simpa [isClosed] using h
    rw [List.nil_append, splitOutside, if_pos ⟨rfl, hc⟩]
  | cons d t ih =>
    obtain ⟨hd, ht⟩ := isClosed_cons.mp h
    rw [List.cons_append, splitOutside, if_neg hd, ih ht]

theorem IsComponent.no_blank (h : IsComponent v) : isClosed isBlank 0 v = true :=
  isClosed_mono (fun _ hc => by rw [hc, Bool.true_or]) h.closed

theorem IsComponent.no_slash (h : IsComponent v) : isClosed (· == '/') 0 v = true :=
  isClosed_mono (fun _ hc => by rw [hc, Bool.or_true]) h.closed

theorem components_join (h : ∀ v ∈ vs, IsComponent v) : components (join " " vs) = vs := by
  induction vs with
  | nil => rfl
  | cons v vs ih =>
    obtain ⟨hv, h⟩ := List.forall_mem_cons.mp h
    have hkeep : ∀ ws : List Text, (v :: ws).filter (!·.isEmpty) = v :: ws.filter (!·.isEmpty) :=
      fun ws => List.filter_cons_of_pos (by simpa using hv.ne_nil)
    rcases vs with _ | ⟨w, vs⟩
    · rw [join_singleton, components, splitOutside_of_isClosed hv.no_blank,
        hkeep, List.filter_nil]
    · rw [join_space_cons, components, splitOutside_append hv.no_blank (by decide),
        hkeep, ← components, ih h]

theorem cornerValues_join (h : ∀ v ∈ vs, IsComponent v) : cornerValues (join " " vs) = vs := by
  have hclosed : isClosed (· == '/') 0 (join " " vs) = true := by
    rcases eq_or_ne vs [] with rfl | hne
    · rfl
    · exact join_induction (P := fun t => isClosed (· == '/') 0 t = true)
        (fun _ _ ht hu => isClosed_append ht (isClosed_append (by decide) hu))
        (fun v hv => (h v hv).no_slash) hne
  rw [cornerValues, splitOutside_of_isClosed hclosed]
  exact components_join h

end Restyle
