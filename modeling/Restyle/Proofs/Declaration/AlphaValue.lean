import Restyle.Declaration.Color
import Restyle.Proofs.Json.Number
import Restyle.Proofs.Text.Blank
import Restyle.Proofs.Text.Cut
import Restyle.Proofs.Text.Substitution

/-! # Alpha values as percentages

A text with a character that is in no number, as a parenthesis, is multiplied as
an alpha value. Every other percentage is the value itself or is
written in digits. An alpha value in balanced parentheses is not the same as
what stands in front of its first closing one.
-/

namespace Restyle

open Text

variable {c : Char} {a t u w : Text}

def isNumberChar (c : Char) : Bool :=
  c.isAlphanum || c == '.' || c == '-' || c == '+' || c == '%'

theorem ne_of_isNumberChar {d : Char} (hc : isNumberChar c = false) (hd : isNumberChar d = true) :
    c ≠ d := by
  rintro rfl
  exact Bool.false_ne_true (hc.symm.trans hd)

theorem isAlphanum_of_isNumberChar (hc : isNumberChar c = false) : c.isAlphanum = false := by
  simp only [isNumberChar, Bool.or_eq_false_iff] at hc
  exact hc.1.1.1.1

theorem isDigit_of_isNumberChar (hc : isNumberChar c = false) : c.isDigit = false :=
  (Bool.or_eq_false_iff.mp (isAlphanum_of_isNumberChar hc)).2

theorem toLower_of_isNumberChar (hc : isNumberChar c = false) : c.toLower = c := by
  have halpha := (Bool.or_eq_false_iff.mp (isAlphanum_of_isNumberChar hc)).1
  have hupper : ¬ ('A'.val ≤ c.val ∧ c.val ≤ 'Z'.val) :=
    of_decide_eq_false (Bool.or_eq_false_iff.mp halpha).1
  exact dif_neg hupper

theorem isDigits_of_mem (hc : c.isDigit = false) (h : c ∈ t) : isDigits t = false := by
  rw [isDigits, Bool.and_eq_false_iff, List.all_eq_false]
  exact Or.inr ⟨c, h, by simp [hc]⟩

namespace Decimal

theorem mem_spanSign (hc : isNumberChar c = false) (h : c ∈ t) : c ∈ (spanSign t).2 := by
  unfold spanSign
  split
  · exact (List.mem_cons.mp h).resolve_left (ne_of_isNumberChar hc (by decide))
  · exact (List.mem_cons.mp h).resolve_left (ne_of_isNumberChar hc (by decide))
  · exact h

theorem mem_spanDigits (hc : c.isDigit = false) (h : c ∈ t) : c ∈ (spanDigits t).2 := by
  rw [← List.takeWhile_append_dropWhile (p := Char.isDigit) (l := t)] at h
  refine (List.mem_append.mp h).resolve_left fun hmem => ?_
  rw [List.mem_takeWhile_imp hmem] at hc
  exact Bool.false_ne_true hc.symm

theorem exponent?_eq_none (hc : isNumberChar c = false) (h : c ∈ t) : exponent? t = none := by
  rcases t with _ | ⟨d, t⟩
  · exact absurd h List.not_mem_nil
  · rw [exponent?]
    split_ifs with he
    · have hd : c ≠ d := by
        rintro rfl
        rw [toLower_of_isNumberChar hc] at he
        exact ne_of_isNumberChar hc (by decide) he
      have hrest := mem_spanDigits (isDigit_of_isNumberChar hc)
        (mem_spanSign hc ((List.mem_cons.mp h).resolve_left hd))
      dsimp only
      rw [if_pos]
      rw [Bool.or_eq_true, Bool.not_eq_true', List.isEmpty_eq_false_iff]
      exact Or.inr (List.ne_nil_of_mem hrest)
    · rfl

theorem numeral?_eq_none (hc : isNumberChar c = false) (h : c ∈ t) : numeral? t = none := by
  have hdigit := isDigit_of_isNumberChar hc
  have hrest := mem_spanDigits hdigit h
  have hexponent : ∀ p : Text × Text, c ∈ p.2 →
      (if (spanDigits t).1.isEmpty && p.1.isEmpty then none
        else (exponent? p.2).map (⟨(spanDigits t).1, p.1, ·⟩ : Int → Numeral)) = none := by
    intro p hp
    rw [exponent?_eq_none hc hp, Option.map_none, ite_self]
  unfold numeral?
  dsimp only
  split
  · rename_i u hu
    rw [hu] at hrest
    exact hexponent _ (mem_spanDigits hdigit
      ((List.mem_cons.mp hrest).resolve_left (ne_of_isNumberChar hc (by decide))))
  · exact hexponent ([], _) hrest

end Decimal

theorem Binary64.ofText?_eq_none (hc : isNumberChar c = false) (h : c ∈ t) :
    Binary64.ofText? t = none := by
  have hrest := Decimal.mem_spanSign hc h
  have hlower : c ∈ lower (Decimal.spanSign t).2 :=
    List.mem_map.mpr ⟨c, hrest, toLower_of_isNumberChar hc⟩
  have hname : ∀ name : Text, name.all isNumberChar = true → lower (Decimal.spanSign t).2 ≠ name := by
    rintro name hname rfl
    exact notMem_of_all hname hc hlower
  rw [Binary64.ofText?]
  dsimp only
  rw [if_neg (by rintro (he | he) <;> exact hname _ (by decide) he),
    if_neg (hname _ (by decide)), Decimal.ofUnsigned?, Decimal.numeral?_eq_none hc hrest]
  rfl

theorem isPlainNumber_eq_false (hc : isNumberChar c = false) (h : c ∈ t) :
    isPlainNumber t = false := by
  have hdigit := isDigit_of_isNumberChar hc
  have hmem : c ∈ (t.dropStart? "-").getD t := by
    cases hminus : t.dropStart? "-" with
    | none => exact h
    | some u =>
      rw [dropStart?_eq_some.mp hminus] at h
      exact (List.mem_cons.mp h).resolve_left (ne_of_isNumberChar hc (by decide))
  rw [isPlainNumber]
  split
  · exact isDigits_of_mem hdigit hmem
  · rename_i whole fraction hcut
    obtain ⟨d, hsplit, hd, -⟩ := cut?_eq_some hcut
    rw [hsplit, beq_iff_eq.mp hd] at hmem
    rw [Bool.and_eq_false_iff]
    rcases List.mem_append.mp hmem with hmem | hmem
    · exact Or.inl (isDigits_of_mem hdigit hmem)
    · exact Or.inr (isDigits_of_mem hdigit
        ((List.mem_cons.mp hmem).resolve_left (ne_of_isNumberChar hc (by decide))))

namespace Declaration

theorem isPlainPercentage_eq_false (hc : isNumberChar c = false) (h : c ∈ t) :
    isPlainPercentage t = false := by
  unfold isPlainPercentage
  split
  · rename_i number hnumber
    have hmem : c ∈ '%' :: number := by
      rw [← hnumber]
      exact List.mem_reverse.mpr h
    have hrest := List.mem_reverse.mpr
      ((List.mem_cons.mp hmem).resolve_left (ne_of_isNumberChar hc (by decide)))
    rw [isPlainNumber_eq_false hc hrest, Bool.false_and]
  · rfl

theorem mem_trim (hc : isBlank c = false) (h : c ∈ t) : c ∈ trim t := by
  obtain ⟨w, w', hw, hw', he⟩ := exists_eq_trim t
  rw [he, List.mem_append, List.mem_append] at h
  rcases h with (h | h) | h
  · exact absurd (hw c h) (by simp [hc])
  · exact h
  · exact absurd (hw' c h) (by simp [hc])

theorem filter_trim {p : Char → Bool} (hp : ∀ c, p c = true → isBlank c = false) (t : Text) :
    (trim t).filter p = t.filter p := by
  have hblanks : ∀ w : Text, Blank w → w.filter p = [] := fun w hw =>
    List.filter_eq_nil_iff.mpr fun c hc h => Bool.false_ne_true ((hp c h).symm.trans (hw c hc))
  obtain ⟨w, w', hw, hw', he⟩ := exists_eq_trim t
  nth_rewrite 2 [he]
  rw [List.filter_append, List.filter_append, hblanks w hw, hblanks w' hw', List.nil_append,
    List.append_nil]

theorem alphaPercentage_of_mem (hc : isNumberChar c = false) (hb : isBlank c = false) (h : c ∈ a) :
    alphaPercentage a = "calc(" ++ trim a ++ " * 100%)" := by
  have hmem := mem_trim hb h
  rw [alphaPercentage]
  rw [if_neg, isPlainPercentage_eq_false hc hmem, if_neg Bool.false_ne_true,
    Binary64.ofText?_eq_none hc hmem]
  rw [List.isEmpty_iff]
  exact List.ne_nil_of_mem hmem

def isPercentageChar (c : Char) : Bool :=
  c.isDigit || c == '.' || c == '-' || c == '%'

theorem isNumberChar_of_isPercentageChar (h : isPercentageChar c = true) : isNumberChar c = true := by
  simp only [isPercentageChar, isNumberChar, Char.isAlphanum, Bool.or_eq_true] at h ⊢
  tauto

theorem mem_trimFraction (h : c ∈ trimFraction t) : c ∈ t := by
  have hdrop : ∀ (p : Char → Bool) (u : Text), c ∈ dropEndWhile p u → c ∈ u := by
    intro p u hc
    exact List.mem_reverse.mp ((List.dropWhile_suffix p).subset (List.mem_reverse.mp hc))
  rw [trimFraction] at h
  split_ifs at h
  · exact hdrop _ _ (hdrop _ _ h)
  · exact h

theorem isPercentageChar_fixedPlaces {places m : Nat} {e : Int}
    (h : c ∈ Binary64.fixedPlaces places m e) : isPercentageChar c = true := by
  have hpadded : ∀ n k, c ∈ List.replicate k '0' ++ Text.ofNat n → isPercentageChar c = true := by
    intro n k hc
    rcases List.mem_append.mp hc with hc | hc
    · rw [(List.mem_replicate.mp hc).2]
      decide
    · simp [isPercentageChar, isDigit_of_mem_ofNat hc]
  unfold Binary64.fixedPlaces at h
  dsimp only at h
  rcases List.mem_append.mp h with h | h
  · rcases List.mem_append.mp h with h | h
    · exact hpadded _ _ (List.mem_of_mem_take h)
    · rw [List.mem_singleton.mp h]
      decide
  · exact hpadded _ _ (List.mem_of_mem_drop h)

theorem isPercentageChar_percentage {x : Binary64} (h : c ∈ percentage x) :
    isPercentageChar c = true := by
  have hfixed : ∀ t : Text, t.all isPercentageChar = true → c ∈ t → isPercentageChar c = true :=
    fun t ht hc => List.all_eq_true.mp ht c hc
  rw [percentage] at h
  generalize (if x.leNat 1 = true then x.scale 100 else x) = y at h
  cases y with
  | finite negative m e =>
    dsimp only at h
    split_ifs at h
    · exact hfixed "0%" (by decide) h
    · exact hfixed "100%" (by decide) h
    all_goals
      rcases List.mem_append.mp h with h | h
      · rcases List.mem_append.mp h with h | h
        · exact hfixed _ (by decide) h
        · exact isPercentageChar_fixedPlaces (mem_trimFraction h)
      · exact hfixed "%" (by decide) h
  | infinite negative => exact hfixed "100%" (by decide) h
  | nan => exact hfixed "100%" (by decide) h

/-- A percentage is the alpha value, the alpha value multiplied, or written in digits. -/
theorem alphaPercentage_cases (a : Text) : alphaPercentage a = trim a ∨
    alphaPercentage a = "calc(" ++ trim a ++ " * 100%)" ∨
      ∀ c ∈ alphaPercentage a, isPercentageChar c = true := by
  rw [alphaPercentage]
  split_ifs
  · exact Or.inr (Or.inr (by decide))
  · exact Or.inl rfl
  · cases Binary64.ofText? (trim a) with
    | none => exact Or.inr (Or.inl rfl)
    | some x =>
      dsimp only
      split_ifs
      · exact Or.inr (Or.inr fun c hc => isPercentageChar_percentage hc)
      · exact Or.inr (Or.inl rfl)

theorem filter_alphaPercentage {p : Char → Bool} (hnumber : ∀ c, p c = true → isNumberChar c = false)
    (hblank : ∀ c, p c = true → isBlank c = false) (hcalc : ("calc( * 100%)" : Text).all (!p ·) = true)
    (a : Text) : (alphaPercentage a).filter p = a.filter p := by
  have hcalled : (("calc(" : Text) ++ trim a ++ " * 100%)").filter p = a.filter p := by
    have hword : ∀ t : Text, t ⊆ "calc( * 100%)" → t.filter p = [] := fun t ht =>
      List.filter_eq_nil_iff.mpr fun c hc => by simpa using List.all_eq_true.mp hcalc c (ht hc)
    rw [List.filter_append, List.filter_append, hword "calc(" (by decide),
      hword " * 100%)" (by decide), filter_trim hblank, List.nil_append, List.append_nil]
  by_cases hmem : ∃ c ∈ a, p c = true
  · obtain ⟨c, hc, hp⟩ := hmem
    rw [alphaPercentage_of_mem (hnumber c hp) (hblank c hp) hc, hcalled]
  · rcases alphaPercentage_cases a with he | he | hall
    · rw [he, filter_trim hblank]
    · rw [he, hcalled]
    · rw [List.filter_eq_nil_iff.mpr fun c hc hp => hmem ⟨c, hc, hp⟩]
      refine List.filter_eq_nil_iff.mpr fun c hc hp => ?_
      exact ne_of_isNumberChar (hnumber c hp) (isNumberChar_of_isPercentageChar (hall c hc)) rfl

/-- Whether the parentheses of a text close each other, behind some open ones. -/
def balancedBehind : Nat → Text → Bool
  | depth, [] => depth == 0
  | depth, c :: t =>
    if c = '(' then balancedBehind (depth + 1) t
    else if c = ')' then depth != 0 && balancedBehind (depth - 1) t
    else balancedBehind depth t

theorem balancedBehind_append (hopen : '(' ∉ u) (hclosed : ')' ∉ u) (depth : Nat) (t : Text) :
    balancedBehind depth (u ++ t) = balancedBehind depth t := by
  induction u with
  | nil => rfl
  | cons c u ih =>
    have hc : c ≠ '(' := fun he => hopen (he ▸ List.mem_cons_self)
    have hc' : c ≠ ')' := fun he => hclosed (he ▸ List.mem_cons_self)
    rw [List.cons_append, balancedBehind, if_neg hc, if_neg hc',
      ih (fun h => hopen (List.mem_cons_of_mem c h)) fun h => hclosed (List.mem_cons_of_mem c h)]

theorem open_mem_of_balanced (h : balancedBehind 0 (u ++ ')' :: w) = true) (hu : ')' ∉ u) : '(' ∈ u := by
  by_contra hopen
  rw [balancedBehind_append hopen hu] at h
  exact absurd h (by simp [balancedBehind])

/-- An alpha value that is read up to its first closing parenthesis is written as another one. -/
theorem alphaPercentage_append_ne (hopen : '(' ∈ u) (hu : ')' ∉ u) (w s t : Text) :
    alphaPercentage u ++ s ≠ alphaPercentage (u ++ ')' :: w) ++ t := by
  obtain ⟨v, hv, hstart⟩ := exists_eq_trimEnd (trimStart u)
  have hclosed : ')' ∉ trimStart u := fun hmem => hu ((List.dropWhile_suffix isBlank).subset hmem)
  have hvisible : trimStart u ≠ [] := by
    obtain ⟨x, hx, he⟩ := exists_eq_trimStart u
    intro hnil
    rw [hnil, List.append_nil] at he
    exact absurd (hx _ (he ▸ hopen)) (by decide)
  have htrim : trim (u ++ ')' :: w) = trimStart u ++ ')' :: trimEnd w := by
    have happend : trimStart (u ++ ')' :: w) = trimStart u ++ ')' :: w := by
      rw [trimStart, trimStart, List.dropWhile_append, if_neg]
      rwa [List.isEmpty_iff]
    rw [trim, happend, trimEnd_append_cons (by decide)]
  rw [alphaPercentage_of_mem (by decide) (by decide) hopen,
    alphaPercentage_of_mem (by decide) (by decide) (List.mem_append_left _ hopen), htrim]
  intro h
  have hcut : ("calc(" : Text) ++ trim u ++ " * 100%" ++ ')' :: s =
      ("calc(" : Text) ++ trimStart u ++ ')' :: (trimEnd w ++ " * 100%)" ++ t) := by
    simpa using h
  have hcalc : ')' ∉ ("calc(" : Text) := by decide
  have hright : ')' ∉ ("calc(" : Text) ++ trimStart u := fun hmem =>
    (List.mem_append.mp hmem).elim hcalc hclosed
  have hleft : ')' ∉ ("calc(" : Text) ++ trim u ++ " * 100%" := by
    intro hmem
    rcases List.mem_append.mp hmem with hmem | hmem
    · refine hright ((List.mem_append.mp hmem).elim (List.mem_append_left _) fun hmem => ?_)
      rw [hstart]
      exact List.mem_append_right _ (List.mem_append_left v hmem)
    · exact absurd hmem (by decide)
  obtain ⟨hparts, -⟩ := append_cons_inj_of_first hleft hright hcut
  rw [hstart, List.append_assoc] at hparts
  have hgap : (" * 100%" : Text) = v := List.append_cancel_left (List.append_cancel_left hparts)
  exact absurd (hv '*' (hgap ▸ by decide)) (by decide)

end Declaration

end Restyle
