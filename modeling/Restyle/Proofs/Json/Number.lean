import Mathlib.Data.List.TakeWhile
import Mathlib.Data.Nat.Digits.Defs
import Restyle.Json.Basic

/-! # Whole numbers in JSON

A whole number is written in decimal digits, without a needless zero in front,
and an integer of 64 bits is read as what it was written for.
-/

namespace Restyle

namespace Text

theorem ofNat_eq_toDigits (n : Nat) : ofNat n = Nat.toDigits 10 n := by
  rw [ofNat, Nat.repr_eq_ofList_toDigits, String.toList_ofList]

theorem ofNat_ne_nil (n : Nat) : ofNat n ≠ [] := by
  rw [ofNat_eq_toDigits]
  exact Nat.toDigits_ne_nil

theorem isDigit_of_mem_ofNat {n : Nat} {c : Char} (h : c ∈ ofNat n) : c.isDigit = true := by
  rw [ofNat_eq_toDigits] at h
  exact Nat.isDigit_of_mem_toDigits (by decide) (by decide) h

theorem ofNat_zero : ofNat 0 = ['0'] := by
  rw [ofNat_eq_toDigits, Nat.toDigits_zero]

theorem exists_ofNat_eq_cons {n : Nat} (h : n ≠ 0) : ∃ c t, ofNat n = c :: t ∧ c ≠ '0' := by
  rw [ofNat_eq_toDigits]
  induction n using Nat.strongRecOn with
  | ind n ih =>
    by_cases hn : n < 10
    · have hdigit : ∀ n < 10, n ≠ 0 → n.digitChar ≠ '0' := by decide
      exact ⟨n.digitChar, [], Nat.toDigits_of_lt_base hn, hdigit n hn h⟩
    · obtain ⟨c, t, he, hc⟩ := ih (n / 10) (by omega) (by omega)
      refine ⟨c, t ++ [(n % 10).digitChar], ?_, hc⟩
      rw [Nat.toDigits_of_base_le (by decide) (by omega), he, List.cons_append]

end Text

namespace Decimal

theorem ofDigits_ofNat (n : Nat) : ofDigits (Text.ofNat n) = n := by
  rw [Text.ofNat_eq_toDigits]
  exact Nat.ofDigitChars_ten_toDigits

theorem spanDigits_ofNat (n : Nat) : spanDigits (Text.ofNat n) = (Text.ofNat n, []) := by
  have hall : ∀ c ∈ Text.ofNat n, c.isDigit = true := fun c => Text.isDigit_of_mem_ofNat
  rw [spanDigits, List.takeWhile_eq_self_iff.mpr hall, List.dropWhile_eq_nil_iff.mpr hall]

end Decimal

namespace Number

open Decimal

theorem eq_minus_or_isDigit_of_mem {n : Int} {c : Char} (h : c ∈ (integer n).toText) :
    c = '-' ∨ c.isDigit = true := by
  cases n with
  | ofNat k => exact Or.inr (Text.isDigit_of_mem_ofNat h)
  | negSucc k => exact (List.mem_cons.mp h).imp_right Text.isDigit_of_mem_ofNat

theorem toText_ne_nil {n : Int} : (integer n).toText ≠ [] := by
  cases n with
  | ofNat k => exact Text.ofNat_ne_nil k
  | negSucc k => exact List.cons_ne_nil _ _

theorem ofWord?_of_sign {k : Nat} (hk : k ≠ 0) (negative : Bool)
    (h : fits (if negative then -(k : Int) else k) = true) :
    ofWord? ((if negative then ['-'] else []) ++ Text.ofNat k) =
      some (some (integer (if negative then -(k : Int) else k))) := by
  obtain ⟨c, t, he, hc⟩ := Text.exists_ofNat_eq_cons hk
  have hdigit : c.isDigit = true := Text.isDigit_of_mem_ofNat (he ▸ List.mem_cons_self)
  have hminus : c ≠ '-' := by
    rintro rfl
    exact absurd hdigit (by decide)
  have hspan := spanDigits_ofNat k
  have hvalue := ofDigits_ofNat k
  rw [he] at hspan hvalue ⊢
  cases negative with
  | true => simpa [ofWord?, hspan, hvalue, hk, hc] using h
  | false => simpa [ofWord?, hspan, hvalue, hk, hc, hminus] using h

theorem ofWord?_toText {n : Int} (h : fits n = true) :
    ofWord? (integer n).toText = some (some (integer n)) := by
  cases n with
  | ofNat k =>
    by_cases hk : k = 0
    · subst hk
      have hword : (integer (Int.ofNat 0)).toText = ['0'] := Text.ofNat_zero
      rw [hword]
      rfl
    · exact ofWord?_of_sign hk false h
  | negSucc k => exact ofWord?_of_sign (Nat.succ_ne_zero k) true h

end Number

end Restyle
