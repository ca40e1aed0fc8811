import Mathlib.Data.List.Basic
import Restyle.Text.Substitution

/-! # Substitution part by part

A recogniser that does not look back sees a text as a sequence of recognised
parts and single characters, and a substitution treats the parts one after the
other.
-/

namespace Restyle.Text

variable {α : Type} {r : Recogniser Text} {t u w rest out new : Text} {c a : Char}

theorem dropStart?_eq_some {start : Text} :
    dropStart? t start = some rest ↔ t = start ++ rest := by
  induction start generalizing t with
  | nil => simp [dropStart?]
  | cons a start ih =>
    cases t with
    | nil => simp [dropStart?]
    | cons b t =>
      by_cases h : a = b
      · simp [dropStart?, h, ih]
      · simp [dropStart?, h, Ne.symm h]

theorem dropStart?_eq_none {start : Text} :
    dropStart? t start = none ↔ ∀ rest, t ≠ start ++ rest := by
  rw [Option.eq_none_iff_forall_ne_some]
  exact forall_congr' fun rest => not_congr dropStart?_eq_some

@[simp] theorem dropStart?_append (start rest : Text) :
    dropStart? (start ++ rest) start = some rest :=
  dropStart?_eq_some.mpr rfl

theorem startsWith_eq_isSome (t start : Text) : t.startsWith start = (dropStart? t start).isSome := by
  induction start generalizing t with
  | nil => cases t <;> rfl
  | cons a start ih =>
    rcases t with _ | ⟨b, t⟩
    · rfl
    · rw [dropStart?]
      split_ifs with h
      · rw [← ih, h]
        simp [startsWith, List.isPrefixOf]
      · simp [startsWith, List.isPrefixOf, h]

/-- A text of which no part is recognised stays as it is. -/
theorem substitute_eq_self_of_suffix (h : ∀ before u, u <:+ t → r before u = none) :
    substitute r t = t := by
  have hfrom : ∀ before u, u <:+ t → substituteFrom r 0 before u = u := by
    intro before u hu
    induction u generalizing before with
    | nil => rfl
    | cons c u ih =>
      have hnone : r before (c :: u) = none := h before (c :: u) hu
      rw [substituteFrom, hnone]
      exact congrArg (c :: ·) (ih (some c) ((List.suffix_cons c u).trans hu))
  exact hfrom none t (List.suffix_refl t)

/-- A recogniser that does not look at the character before a text. -/
def Recogniser.Forward (r : Recogniser α) : Prop :=
  ∀ before t, r before t = r none t

theorem substituteFrom_before (hr : r.Forward) (skip : Nat) (b b' : Option Char) (t : Text) :
    substituteFrom r skip b t = substituteFrom r skip b' t := by
  cases t with
  | nil => cases skip <;> rfl
  | cons c t =>
    cases skip with
    | zero => simp only [substituteFrom, hr b, hr b']
    | succ skip => rfl

theorem substituteFrom_length (hr : r.Forward) (b : Option Char) (t u : Text) :
    substituteFrom r t.length b (t ++ u) = substitute r u := by
  induction t generalizing b with
  | nil => exact substituteFrom_before hr 0 b none u
  | cons c t ih => exact ih (some c)

@[simp] theorem substitute_nil (r : Recogniser Text) : substitute r [] = [] := rfl

theorem substitute_cons (hr : r.Forward) (h : r none (c :: t) = none) :
    substitute r (c :: t) = c :: substitute r t := by
  rw [substitute, substituteFrom, h]
  exact congrArg (c :: ·) (substituteFrom_before hr 0 _ none t)

theorem substitute_append (hr : r.Forward) (hu : u ≠ [])
    (h : r none (u ++ rest) = some (out, rest)) :
    substitute r (u ++ rest) = out ++ substitute r rest := by
  obtain ⟨c, u, rfl⟩ := List.exists_cons_of_ne_nil hu
  rw [List.cons_append] at h ⊢
  rw [substitute, substituteFrom, h]
  have hlen : (u ++ rest).length - rest.length = u.length := by simp
  simp only [hlen, substituteFrom_length hr]

/-- A recogniser that recognises nothing at a character and never looks beyond it. -/
def Recogniser.StopsAt (r : Recogniser α) (c : Char) : Prop :=
  r none [] = none ∧ ∀ t u, r none (t ++ c :: u) = (r none t).map fun (a, rest) => (a, rest ++ c :: u)

theorem substituteFrom_append_cons (hr : r.Forward) (hc : r.StopsAt c) {skip : Nat} (b : Option Char)
    (hskip : skip ≤ t.length) (u : Text) :
    substituteFrom r skip b (t ++ c :: u) = substituteFrom r skip b t ++ c :: substitute r u := by
  induction t generalizing skip b with
  | nil =>
    obtain rfl : skip = 0 := Nat.le_zero.mp hskip
    have hnone : r b (c :: u) = none := by
      have hstop := hc.2 [] u
      rwa [hc.1, List.nil_append, Option.map_none, ← hr b] at hstop
    simp only [List.nil_append, substituteFrom, hnone]
    exact congrArg (c :: ·) (substituteFrom_before hr 0 (some c) none u)
  | cons d t ih =>
    rw [List.cons_append]
    cases skip with
    | succ skip => exact ih (some d) (Nat.le_of_succ_le_succ hskip)
    | zero =>
      have hstop := hc.2 (d :: t) u
      rw [List.cons_append, ← hr b, ← hr b (d :: t)] at hstop
      cases h : r b (d :: t) with
      | none =>
        rw [h] at hstop
        simp only [substituteFrom, h, hstop, Option.map_none, ih (some d) (Nat.zero_le _),
          List.cons_append]
      | some result =>
        rw [h] at hstop
        have hlen : (t ++ c :: u).length - (result.2 ++ c :: u).length =
            t.length - result.2.length := by
          simp only [List.length_append]
          omega
        simp only [substituteFrom, h, hstop, Option.map_some, hlen,
          ih (some d) (Nat.sub_le _ _), List.append_assoc]

/-- A text can be cut at a character that a recogniser stops at. -/
theorem substitute_append_cons (hr : r.Forward) (hc : r.StopsAt c) (t u : Text) :
    substitute r (t ++ c :: u) = substitute r t ++ c :: substitute r u :=
  substituteFrom_append_cons hr hc none (Nat.zero_le _) u

theorem dropStart?_append_cons {start : Text} (hc : c ∉ start) (t u : Text) :
    dropStart? (t ++ c :: u) start = (dropStart? t start).map (· ++ c :: u) := by
  induction start generalizing t with
  | nil => cases t <;> rfl
  | cons a start ih =>
    rw [List.mem_cons, not_or] at hc
    cases t with
    | nil => simp [dropStart?, Ne.symm hc.1]
    | cons b t =>
      rw [List.cons_append, dropStart?, dropStart?, ih hc.2]
      split <;> rfl

theorem takeWhile_append_cons {p : Char → Bool} (hc : p c = false) (t u : Text) :
    (t ++ c :: u).takeWhile p = t.takeWhile p := by
  induction t with
  | nil => simp [hc]
  | cons d t ih => simp [List.takeWhile_cons, ih]

theorem dropWhile_append_cons {p : Char → Bool} (hc : p c = false) (t u : Text) :
    (t ++ c :: u).dropWhile p = t.dropWhile p ++ c :: u := by
  induction t with
  | nil => simp [hc]
  | cons d t ih =>
    rw [List.cons_append, List.dropWhile_cons, List.dropWhile_cons, ih]
    split <;> rfl

theorem stopsAt_literal {old : Text} (hold : old ≠ []) (hc : c ∉ old) (new : Text) :
    (literal old new).StopsAt c := by
  constructor
  · obtain ⟨a, old, rfl⟩ := List.exists_cons_of_ne_nil hold
    rfl
  · intro t u
    rw [literal, dropStart?_append_cons hc, Option.map_map, literal, Option.map_map]
    rfl

theorem forward_literal (old new : Text) : (literal old new).Forward :=
  fun _ _ => rfl

theorem replace_append_of_notMem (h : c ∉ t) (old new u : Text) :
    replace (t ++ u) (c :: old) new = t ++ replace u (c :: old) new := by
  induction t with
  | nil => rfl
  | cons d t ih =>
    rw [List.mem_cons, not_or] at h
    have hnone : literal (c :: old) new none (d :: (t ++ u)) = none := by
      simp [literal, dropStart?, h.1]
    rw [List.cons_append, replace, substitute_cons (forward_literal _ _) hnone, ← replace, ih h.2,
      List.cons_append]

theorem replace_append {old : Text} (h : old ≠ []) (new u : Text) :
    replace (old ++ u) old new = new ++ replace u old new := by
  refine substitute_append (forward_literal _ _) h ?_
  rw [literal, dropStart?_append]
  rfl

theorem replace_singleton (t : Text) (a : Char) (new : Text) :
    replace t [a] new = t.flatMap fun c => if c = a then new else [c] := by
  have hr := forward_literal [a] new
  induction t with
  | nil => rfl
  | cons c t ih =>
    by_cases hc : c = a
    · subst hc
      have h : literal [c] new none ([c] ++ t) = some (new, t) := by simp [literal, dropStart?]
      have hs := substitute_append hr (by simp) h
      rw [List.singleton_append, ← replace, ← replace, ih] at hs
      rw [hs, List.flatMap_cons, if_pos rfl]
    · have h : literal [a] new none (c :: t) = none := by
        simp [literal, dropStart?, Ne.symm hc]
      rw [replace, substitute_cons hr h, ← replace, ih]
      simp [hc]

theorem replace_singleton_append (t u : Text) (a : Char) (new : Text) :
    replace (t ++ u) [a] new = replace t [a] new ++ replace u [a] new := by
  simp only [replace_singleton, List.flatMap_append]

theorem replace_singleton_of_notMem (h : a ∉ t) (new : Text) : replace t [a] new = t := by
  have happend := replace_append_of_notMem h [] new []
  rw [List.append_nil] at happend
  exact happend.trans (List.append_nil t)

end Restyle.Text
